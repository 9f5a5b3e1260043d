import Codemod.Proofs.Text.Trim

namespace Codemod.Text

/-- A byte of a character behind its first. -/
def isTail (b : UInt8) : Bool := 0x80 ≤ b && b ≤ 0xBF

theorem isTail_iff {b : UInt8} : isTail b = true ↔ 128 ≤ b.toNat ∧ b.toNat ≤ 191 := by
  rw [isTail, Bool.and_eq_true, decide_eq_true_eq, decide_eq_true_eq, UInt8.le_iff_toNat_le, UInt8.le_iff_toNat_le]
  rfl

theorem isTail_of_tail {low high b : UInt8} {x : Nat} (hlow : 128 ≤ low.toNat) (hhigh : high.toNat ≤ 191)
    (h : (if low ≤ b && b ≤ high then some (b.toNat % 64) else none) = some x) : isTail b = true := by
  obtain ⟨⟨hge, hle⟩, -⟩ := bounds_of_tail h
  exact isTail_iff.mpr ⟨by omega, by omega⟩

/-- What it takes to read a character: its bytes are there, and nothing behind them counts. -/
structure FirstChar (a : UInt8) (r : Bytes) (c : Char) (extra : Nat) : Prop where
  le : extra ≤ r.length
  tail : ∀ b ∈ r.take extra, isTail b = true
  start : isTail a = false
  again : ∀ t, firstChar? (a :: (r.take extra ++ t)) = some (c, extra)

theorem firstChar_of_eq {a : UInt8} {r : Bytes} {c : Char} {extra : Nat} (h : firstChar? (a :: r) = some (c, extra)) :
    FirstChar a r c extra := by
  have hstart (ha : a.toNat < 128 ∨ 192 ≤ a.toNat) : isTail a = false := by
    rw [Bool.eq_false_iff, ne_eq, isTail_iff]
    omega
  have hlow {k low' : UInt8} (hlow' : 128 ≤ low'.toNat) : 128 ≤ (if a = k then low' else 0x80).toNat := by
    split
    · exact hlow'
    · exact Nat.le_refl _
  have hhigh {k high' : UInt8} (hhigh' : high'.toNat ≤ 191) : (if a = k then high' else 0xBF).toNat ≤ 191 := by
    split
    · exact hhigh'
    · exact Nat.le_refl _
  unfold firstChar? at h
  dsimp only at h
  split at h
  · next ha =>
    cases h
    refine ⟨Nat.zero_le _, by simp, hstart (.inl (UInt8.lt_iff_toNat_lt.mp ha)), fun t => ?_⟩
    unfold firstChar?
    exact if_pos ha
  · next ha =>
    split at h
    · next ha2 =>
      rcases r with _ | ⟨b, r⟩
      · cases h
      · obtain ⟨x, hx, heq⟩ := Option.bind_eq_some_iff.mp h
        cases heq
        refine ⟨by simp, ?_, hstart (.inr ?_), fun t => ?_⟩
        · rw [List.take_succ_cons, List.take_zero, List.forall_mem_singleton]
          exact isTail_of_tail (by decide) (by decide) hx
        · have := (toNat_of_range ha2).1
          exact Nat.le_trans (by decide) this
        · unfold firstChar?
          dsimp only
          rw [if_neg ha, if_pos ha2]
          exact h
    · next ha2 =>
      split at h
      · next ha3 =>
        rcases r with _ | ⟨b, _ | ⟨d, r⟩⟩
        · cases h
        · cases h
        · obtain ⟨x, hx, h'⟩ := Option.bind_eq_some_iff.mp h
          obtain ⟨y, hy, heq⟩ := Option.bind_eq_some_iff.mp h'
          cases heq
          refine ⟨by simp, ?_, hstart (.inr ?_), fun t => ?_⟩
          · simp only [List.take_succ_cons, List.take_zero, List.forall_mem_cons, List.not_mem_nil, false_implies,
              implies_true, and_true]
            exact ⟨isTail_of_tail (hlow (by decide)) (hhigh (by decide)) hx, isTail_of_tail (by decide) (by decide) hy⟩
          · have := (toNat_of_range ha3).1
            exact Nat.le_trans (by decide) this
          · unfold firstChar?
            dsimp only
            rw [if_neg ha, if_neg ha2, if_pos ha3]
            exact h
      · next ha3 =>
        split at h
        · next ha4 =>
          rcases r with _ | ⟨b, _ | ⟨d, _ | ⟨e, r⟩⟩⟩
          · cases h
          · cases h
          · cases h
          · obtain ⟨x, hx, h'⟩ := Option.bind_eq_some_iff.mp h
            obtain ⟨y, hy, h'⟩ := Option.bind_eq_some_iff.mp h'
            obtain ⟨z, hz, heq⟩ := Option.bind_eq_some_iff.mp h'
            cases heq
            refine ⟨by simp, ?_, hstart (.inr ?_), fun t => ?_⟩
            · simp only [List.take_succ_cons, List.take_zero, List.forall_mem_cons, List.not_mem_nil, false_implies,
                implies_true, and_true]
              exact ⟨isTail_of_tail (hlow (by decide)) (hhigh (by decide)) hx,
                isTail_of_tail (by decide) (by decide) hy, isTail_of_tail (by decide) (by decide) hz⟩
            · have := (toNat_of_range ha4).1
              exact Nat.le_trans (by decide) this
            · unfold firstChar?
              dsimp only
              rw [if_neg ha, if_neg ha2, if_neg ha3, if_pos ha4]
              exact h
        · cases h

/-- A text that does not begin in the middle of a character. -/
def Whole (s : Bytes) : Prop := s.head?.any isTail = false

theorem firstChar?_append {a : UInt8} {r t : Bytes} (ht : Whole t) :
    firstChar? (a :: (r ++ t)) = firstChar? (a :: r) := by
  cases h : firstChar? (a :: r) with
  | some x =>
    have hfirst := firstChar_of_eq h
    have hagain := hfirst.again (r.drop x.2 ++ t)
    rwa [← List.append_assoc, List.take_append_drop] at hagain
  | none =>
    cases h' : firstChar? (a :: (r ++ t)) with
    | none => rfl
    | some x =>
      obtain ⟨c, n⟩ := x
      have hfirst := firstChar_of_eq h'
      by_cases hn : n ≤ r.length
      · have hagain := hfirst.again (r.drop n)
        rw [List.take_append_of_le_length hn, List.take_append_drop, h] at hagain
        cases hagain
      · have hlength := hfirst.le
        rw [List.length_append] at hlength
        obtain ⟨b, t, rfl⟩ := List.exists_cons_of_length_pos (l := t) (by omega)
        have hmem : b ∈ (r ++ b :: t).take n := by
          rw [List.take_append, List.take_of_length_le (by omega)]
          refine List.mem_append_right _ ?_
          rw [← Nat.succ_pred_eq_of_pos (n := n - r.length) (by omega), List.take_succ_cons]
          exact List.mem_cons_self
        have htail := hfirst.tail b hmem
        rw [show isTail b = false from ht] at htail
        cases htail

/-- Texts are read one after the other where the second begins with a character. -/
theorem scalars_append {s t : Bytes} (ht : Whole t) : scalars (s ++ t) = scalars s ++ scalars t := by
  fun_induction scalars s with
  | case1 => rfl
  | case2 a r c extra hfirst ih =>
    have hle := (firstChar_of_eq hfirst).le
    rw [List.cons_append, scalars, firstChar?_append ht, hfirst]
    dsimp only
    rw [List.drop_append_of_le_length hle, ih]
    rfl
  | case3 a r hfirst ih =>
    rw [List.cons_append, scalars, firstChar?_append ht, hfirst]
    dsimp only
    rw [ih]
    rfl

/-- So are they where the first is made of characters. -/
theorem scalars_append_of_chars {s t : Bytes} (hs : ∀ x ∈ scalars s, x.isRight = true) :
    scalars (s ++ t) = scalars s ++ scalars t := by
  fun_induction scalars s with
  | case1 => rfl
  | case2 a r c extra hfirst ih =>
    have hchar := firstChar_of_eq hfirst
    have hagain := hchar.again (r.drop extra ++ t)
    rw [← List.append_assoc, List.take_append_drop] at hagain
    rw [List.cons_append, scalars, hagain]
    dsimp only
    rw [List.drop_append_of_le_length hchar.le, ih fun x hx => hs x (List.mem_cons_of_mem _ hx)]
    rfl
  | case3 a r hfirst ih =>
    have hleft := hs _ List.mem_cons_self
    cases hleft

/-- White space, as a text is read. -/
def blankScalar : UInt8 ⊕ Char → Bool := Sum.elim (fun _ => false) isBlank

def scalarBytes : UInt8 ⊕ Char → Bytes := Sum.elim (fun b => [b]) String.utf8EncodeChar

/-- A list without what has a property at its ends. -/
def trimList {α : Type} (p : α → Bool) (l : List α) : List α := ((l.dropWhile p).reverse.dropWhile p).reverse

theorem trimBytes_eq (s : Bytes) : trimBytes s = (trimList blankScalar (scalars s)).flatMap scalarBytes := by
  have htrim {blank : UInt8 ⊕ Char → Bool} {encode : UInt8 ⊕ Char → Bytes} (hblank : ∀ x, blank x = blankScalar x)
      (hencode : ∀ x, encode x = scalarBytes x) :
      (trimList blank (scalars s)).flatMap encode = (trimList blankScalar (scalars s)).flatMap scalarBytes := by
    rw [funext hblank, funext hencode]
  exact htrim (fun x => by cases x <;> rfl) fun x => by cases x <;> rfl

/-- A reading is cut where the text can be. -/
theorem scalars_split {s : Bytes} {front back : List (UInt8 ⊕ Char)} (h : scalars s = front ++ back) :
    ∃ t, s = front.flatMap scalarBytes ++ t ∧ scalars t = back ∧
      ((∀ x ∈ front, x.isRight = true) → scalars (front.flatMap scalarBytes) = front) := by
  induction front generalizing s with
  | nil => exact ⟨s, rfl, h, fun _ => scalars.eq_1⟩
  | cons x front ih =>
    cases s with
    | nil => rw [scalars] at h; cases h
    | cons a r =>
      rw [scalars] at h
      cases hfirst : firstChar? (a :: r) with
      | some y =>
        obtain ⟨c, extra⟩ := y
        rw [hfirst] at h
        obtain ⟨rfl, hrest⟩ := List.cons.inj h
        obtain ⟨t, hsplit, hback, hfront⟩ := ih hrest
        have hbytes : scalarBytes (.inr c) = a :: r.take extra := encode_firstChar hfirst
        refine ⟨t, ?_, hback, fun hchars => ?_⟩
        · rw [List.flatMap_cons, hbytes, List.append_assoc, ← hsplit, List.cons_append, List.take_append_drop]
        · have hchar := firstChar_of_eq hfirst
          rw [List.flatMap_cons, hbytes, List.cons_append, scalars, hchar.again]
          dsimp only
          rw [List.drop_left' (List.length_take_of_le hchar.le), hfront fun x hx => hchars x (List.mem_cons_of_mem _ hx)]
      | none =>
        rw [hfirst] at h
        obtain ⟨rfl, hrest⟩ := List.cons.inj h
        obtain ⟨t, hsplit, hback, -⟩ := ih hrest
        refine ⟨t, ?_, hback, fun hchars => ?_⟩
        · rw [List.flatMap_cons, List.append_assoc, ← hsplit]
          rfl
        · have hleft := hchars _ List.mem_cons_self
          cases hleft

/-- A text of nothing but white space. -/
def Blank (s : Bytes) : Prop := ∀ x ∈ scalars s, blankScalar x = true

theorem isRight_of_blank {x : UInt8 ⊕ Char} (h : blankScalar x = true) : x.isRight = true := by
  cases x with
  | inl b => cases h
  | inr c => rfl

theorem Blank.whole {s : Bytes} (h : Blank s) : Whole s := by
  cases s with
  | nil => rfl
  | cons a r =>
    unfold Blank at h
    rw [scalars] at h
    cases hfirst : firstChar? (a :: r) with
    | some x => exact (firstChar_of_eq hfirst).start
    | none =>
      rw [hfirst] at h
      cases h _ List.mem_cons_self

theorem Blank.nil : Blank [] := by
  intro x hx
  rw [scalars] at hx
  cases hx

theorem Blank.append {s t : Bytes} (hs : Blank s) (ht : Blank t) : Blank (s ++ t) := by
  unfold Blank
  rw [scalars_append ht.whole]
  exact List.forall_mem_append.mpr ⟨hs, ht⟩

theorem trimList_append_left {α : Type} {p : α → Bool} {l : List α} (h : ∀ x ∈ l, p x = true) (m : List α) :
    trimList p (l ++ m) = trimList p m := by
  rw [trimList, List.dropWhile_append_of_pos h, trimList]

theorem trimList_append_right {α : Type} {p : α → Bool} {m : List α} (h : ∀ x ∈ m, p x = true) (l : List α) :
    trimList p (l ++ m) = trimList p l := by
  have hreverse : ∀ x ∈ m.reverse, p x = true := fun x hx => h x (List.mem_reverse.mp hx)
  unfold trimList
  rw [List.dropWhile_append]
  split
  · next hempty =>
    rw [List.isEmpty_iff.mp hempty, List.dropWhile_eq_nil_iff.mpr h]
  · rw [List.reverse_append, List.dropWhile_append_of_pos hreverse]

/-- White space at the ends of a text is trimmed with the rest. -/
theorem trimBytes_blank_append {s t : Bytes} (hs : Blank s) : trimBytes (s ++ t) = trimBytes t := by
  rw [trimBytes_eq, trimBytes_eq, scalars_append_of_chars fun x hx => isRight_of_blank (hs x hx), trimList_append_left hs]

theorem trimBytes_append_blank {s t : Bytes} (ht : Blank t) : trimBytes (s ++ t) = trimBytes s := by
  rw [trimBytes_eq, trimBytes_eq, scalars_append ht.whole, trimList_append_right ht]

theorem head_trimList {α : Type} {p : α → Bool} {l : List α} {x : α} (h : (trimList p l).head? = some x) : p x = false := by
  obtain ⟨tail, htail⟩ := List.rdropWhile_prefix p (l.dropWhile p)
  have hhead : (l.dropWhile p).head? = some x := by
    rw [← htail, List.head?_append]
    exact Option.or_eq_some_iff.mpr (.inl h)
  have hnot := List.head?_dropWhile_not p l
  rw [hhead] at hnot
  simpa using hnot

/-- A text is its trimmed part with white space around it. -/
theorem trimBytes_split (s : Bytes) : ∃ lead trail, s = lead ++ trimBytes s ++ trail ∧ Blank lead ∧ Blank trail ∧
    scalars (trimBytes s) = trimList blankScalar (scalars s) := by
  have hrest : (scalars s).dropWhile blankScalar = trimList blankScalar (scalars s) ++
      (((scalars s).dropWhile blankScalar).reverse.takeWhile blankScalar).reverse := by
    rw [trimList, ← List.reverse_append, List.takeWhile_append_dropWhile, List.reverse_reverse]
  obtain ⟨t, hs, ht, hlead⟩ := scalars_split (List.takeWhile_append_dropWhile (p := blankScalar) (l := scalars s)).symm
  obtain ⟨trail, hsplit, htrail, -⟩ := scalars_split (ht.trans hrest)
  rw [← trimBytes_eq] at hsplit
  have hblankLead : ∀ x ∈ (scalars s).takeWhile blankScalar, blankScalar x = true := fun x hx => (List.mem_takeWhile_imp hx)
  have hblank : Blank trail := by
    intro x hx
    rw [htrail] at hx
    exact List.mem_takeWhile_imp (List.mem_reverse.mp hx)
  refine ⟨_, trail, by rw [List.append_assoc, ← hsplit]; exact hs, ?_, hblank, ?_⟩
  · intro x hx
    rw [hlead fun x hx => isRight_of_blank (hblankLead x hx)] at hx
    exact hblankLead x hx
  · rw [hsplit, scalars_append hblank.whole, hrest, htrail] at ht
    exact List.append_cancel_right ht

theorem trimBytes_trimBytes (s : Bytes) : trimBytes (trimBytes s) = trimBytes s := by
  obtain ⟨lead, trail, hsplit, hlead, htrail, -⟩ := trimBytes_split s
  conv_rhs => rw [hsplit, trimBytes_append_blank htrail, trimBytes_blank_append hlead]

theorem blank_of_trimBytes_eq_nil {s : Bytes} (h : trimBytes s = []) : Blank s := by
  obtain ⟨lead, trail, hsplit, hlead, htrail, -⟩ := trimBytes_split s
  rw [h, List.append_nil] at hsplit
  rw [hsplit]
  exact hlead.append htrail

/-- A trimmed text does not begin with white space. -/
theorem not_blank_of_firstChar? {s : Bytes} {c : Char} {extra : Nat} (h : firstChar? (trimBytes s) = some (c, extra)) :
    isBlank c = false := by
  obtain ⟨-, -, -, -, -, hread⟩ := trimBytes_split s
  have hhead : (scalars (trimBytes s)).head? = some (.inr c) := by
    cases htrim : trimBytes s with
    | nil => rw [htrim] at h; cases h
    | cons a r =>
      rw [htrim] at h
      rw [scalars, h]
      rfl
  rw [hread] at hhead
  have hnot : blankScalar (.inr c) = false := head_trimList hhead
  exact hnot

/-- A printed sign of ASCII. -/
def isVisible (b : UInt8) : Bool := 33 ≤ b && b ≤ 126

theorem isVisible_iff {b : UInt8} : isVisible b = true ↔ 33 ≤ b.toNat ∧ b.toNat ≤ 126 := by
  rw [isVisible, Bool.and_eq_true, decide_eq_true_eq, decide_eq_true_eq, UInt8.le_iff_toNat_le, UInt8.le_iff_toNat_le]
  rfl

theorem Blank.not_visible {s : Bytes} (h : Blank s) : ∀ b ∈ s, isVisible b = false := by
  unfold Blank at h
  fun_induction scalars s with
  | case1 => exact fun b hb => absurd hb List.not_mem_nil
  | case2 a r c extra hfirst ih =>
    have hchar := firstChar_of_eq hfirst
    obtain ⟨hblank, hrest⟩ := List.forall_mem_cons.mp h
    intro b hb
    rw [Bool.eq_false_iff]
    intro hvisible
    have hrange := isVisible_iff.mp hvisible
    obtain rfl | hb := List.mem_cons.mp hb
    · have hlt : b < 0x80 := UInt8.lt_iff_toNat_lt.mpr (Nat.lt_of_le_of_lt hrange.2 (by decide))
      have hascii : firstChar? (b :: r) = some (Char.ofNat b.toNat, 0) := by
        unfold firstChar?
        exact if_pos hlt
      cases hfirst.symm.trans hascii
      have hcode : (Char.ofNat b.toNat).toNat = b.toNat := val_ofNat (.inl (by omega))
      have hnot : isBlank (Char.ofNat b.toNat) = true := hblank
      simp only [isBlank, hcode, Bool.or_eq_true, Bool.and_eq_true, decide_eq_true_eq, beq_iff_eq] at hnot
      omega
    · rw [← List.take_append_drop extra r, List.mem_append] at hb
      obtain hb | hb := hb
      · have htail := isTail_iff.mp (hchar.tail b hb)
        omega
      · rw [ih hrest b hb] at hvisible
        cases hvisible
  | case3 a r hfirst ih => cases h _ List.mem_cons_self

/-- A text without white space stays as it is. -/
theorem trimBytes_of_visible {s : Bytes} (h : ∀ b ∈ s, isVisible b = true) : trimBytes s = s := by
  obtain ⟨lead, trail, hsplit, hlead, htrail, -⟩ := trimBytes_split s
  have hnil {w : Bytes} (hw : Blank w) (hsub : ∀ b ∈ w, b ∈ s) : w = [] :=
    List.eq_nil_iff_forall_not_mem.mpr fun b hb => by
      have hvisible := h b (hsub b hb)
      rw [hw.not_visible b hb] at hvisible
      cases hvisible
  have hmem : ∀ b ∈ lead ++ trimBytes s ++ trail, b ∈ s := fun b hb => hsplit ▸ hb
  rw [hnil hlead fun b hb => hmem b (by simp [hb]), hnil htrail fun b hb => hmem b (by simp [hb]), List.nil_append,
    List.append_nil] at hsplit
  exact hsplit.symm

/-- A text is not found where its first byte is not. -/
theorem indexOf?_append_of_head {a : UInt8} {r front s : Bytes} (h : a ∉ front) :
    Bytes.indexOf? (a :: r) (front ++ s) = (Bytes.indexOf? (a :: r) s).map (front.length + ·) := by
  induction front with
  | nil => simp
  | cons b front ih =>
    rw [List.mem_cons, not_or] at h
    have hnot : ¬Bytes.startsWith (b :: (front ++ s)) (a :: r) = true := by
      rw [Bytes.startsWith, List.isPrefixOf_cons_cons, Bool.and_eq_true, beq_iff_eq]
      exact fun hboth => h.1 hboth.1
    rw [List.cons_append, Bytes.indexOf?, if_neg hnot, ih h.2, Option.map_map]
    congr 1
    funext n
    rw [Function.comp_apply, List.length_cons]
    omega

/-- Behind white space a text that begins with another character is found in its place. -/
theorem indexOf?_blank_append {lead text : Bytes} (hlead : Blank lead) {c : Char} {extra : Nat}
    (hfirst : firstChar? text = some (c, extra)) (hc : isBlank c = false) (rest : Bytes) :
    Bytes.indexOf? text (lead ++ (text ++ rest)) = some lead.length := by
  unfold Blank at hlead
  cases text with
  | nil => cases hfirst
  | cons b text =>
    have hchar := firstChar_of_eq hfirst
    fun_induction scalars lead with
    | case1 =>
      have hstarts : Bytes.startsWith (b :: (text ++ rest)) (b :: text) = true :=
        List.isPrefixOf_iff_prefix.mpr (List.prefix_append (b :: text) rest)
      exact if_pos hstarts
    | case2 a r c' extra' hblank ih =>
      obtain ⟨hc', hrest⟩ := List.forall_mem_cons.mp hlead
      have hchar' := firstChar_of_eq hblank
      -- the white space is not the first character of the text
      have hnot : ¬Bytes.startsWith (a :: (r ++ (b :: text ++ rest))) (b :: text) = true := by
        intro hstarts
        obtain ⟨behind, hbehind⟩ := List.isPrefixOf_iff_prefix.mp hstarts
        obtain ⟨rfl, htail⟩ := List.cons.inj hbehind
        have htail : text ++ behind = r ++ (b :: text ++ rest) := htail
        have hread := hchar.again (text.drop extra ++ behind)
        have hread' := hchar'.again (r.drop extra' ++ (b :: text ++ rest))
        rw [← List.append_assoc, List.take_append_drop] at hread hread'
        rw [htail, hread'] at hread
        cases hread
        rw [show isBlank c = true from hc'] at hc
        cases hc
      have hb : b ∉ r.take extra' := by
        intro hmem
        have htail := hchar'.tail b hmem
        rw [hchar.start] at htail
        cases htail
      rw [List.cons_append, Bytes.indexOf?, if_neg hnot]
      nth_rewrite 1 [← List.take_append_drop extra' r]
      rw [List.append_assoc, indexOf?_append_of_head hb, ih hrest, Option.map_some, Option.map_some, List.length_cons,
        List.length_take_of_le hchar'.le, List.length_drop, Nat.add_sub_cancel' hchar'.le]
    | case3 a r hfirst ih => cases hlead _ List.mem_cons_self

end Codemod.Text
