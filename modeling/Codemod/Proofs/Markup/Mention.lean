import Codemod.Proofs.Markup.Every

namespace Codemod.Markup

/-- A text that is part of a name or of a value, wherever it stands in a tag. -/
structure Word (w : Bytes) : Prop where
  nonempty : w ≠ []
  plain : ∀ b ∈ w, isKeyEnd b = false ∧ isQuote b = false ∧ b ≠ 60

theorem contains_iff (s part : Bytes) : s.contains part = true ↔ part <:+: s := by
  unfold Bytes.contains
  induction s with
  | nil => simp [Bytes.indexOf?]
  | cons c s ih =>
    rw [Bytes.indexOf?, List.infix_cons_iff, ← ih]
    by_cases h : Bytes.startsWith (c :: s) part = true
    · rw [if_pos h]
      simp [List.isPrefixOf_iff_prefix.mp h]
    · have hnot : ¬part <+: c :: s := fun hp => h (List.isPrefixOf_iff_prefix.mpr hp)
      rw [if_neg h, Option.isSome_map]
      simp [hnot]

theorem infix_within {w part whole : Bytes} (h : w <:+: part) (a b : Bytes) (hwhole : whole = a ++ (part ++ b)) :
    w <:+: whole := by
  rw [hwhole, ← List.append_assoc]
  exact h.trans (List.infix_append a part b)

/-- A text stands on one side of a byte that it does not have. -/
theorem infix_append_of_cut {w a b : Bytes} (hne : w ≠ [])
    (hcut : (∀ x ∈ b.head?, x ∉ w) ∨ ∀ x ∈ a.getLast?, x ∉ w) (h : w <:+: a ++ b) : w <:+: a ∨ w <:+: b := by
  obtain ⟨s, t, h⟩ := h
  rcases List.append_eq_append_iff.mp h with ⟨c, rfl, rfl⟩ | ⟨c, hc, rfl⟩
  · exact Or.inl ⟨s, c, rfl⟩
  · rcases List.append_eq_append_iff.mp hc with ⟨u, rfl, rfl⟩ | ⟨u, rfl, rfl⟩
    · -- the text begins in front of the cut and ends behind it
      rcases List.eq_nil_or_concat u with rfl | ⟨u, z, rfl⟩
      · exact Or.inr ⟨[], t, rfl⟩
      · rcases c with _ | ⟨y, c⟩
        · exact Or.inl ⟨s, [], by simp⟩
        · rcases hcut with hcut | hcut
          · exact absurd (by simp) (hcut y rfl)
          · exact absurd (by simp) (hcut z (by simp))
    · exact Or.inr ⟨u, t, by simp⟩

theorem infix_tail {w s : Bytes} {x : UInt8} (hne : w ≠ []) (hx : x ∉ w) (h : w <:+: x :: s) : w <:+: s := by
  rcases infix_append_of_cut (a := [x]) hne (Or.inr (by rintro y ⟨⟩; exact hx)) h with h | h
  · obtain ⟨b, hb⟩ := List.exists_mem_of_ne_nil w hne
    exact absurd (List.mem_singleton.mp (h.subset hb) ▸ hb) hx
  · exact h

theorem infix_dropWhile {w s : Bytes} {p : UInt8 → Bool} (hne : w ≠ []) (hp : ∀ b ∈ w, p b = false) (h : w <:+: s) :
    w <:+: s.dropWhile p := by
  induction s with
  | nil => exact h
  | cons x s ih =>
    rw [List.dropWhile_cons]
    split
    · next hx => exact ih (infix_tail hne (fun hw => by rw [hp x hw] at hx; cases hx) h)
    · exact h

/-- A text that stops at the first byte that is not of a kind, or begins there. -/
theorem infix_takeWhile {w a s : Bytes} {p : UInt8 → Bool} (hne : w ≠ []) (hp : ∀ b ∈ w, p b = true)
    (h : w <:+: a ++ s) : w <:+: a ++ s.takeWhile p ∨ w <:+: s.dropWhile p := by
  have hs : a ++ s = (a ++ s.takeWhile p) ++ s.dropWhile p := by
    rw [List.append_assoc, List.takeWhile_append_dropWhile]
  rw [hs] at h
  refine infix_append_of_cut hne (Or.inl fun x hx hw => ?_) h
  have hnot := List.head?_dropWhile_not p s
  rw [Option.mem_def.mp hx] at hnot
  exact absurd (hp x hw) (by simpa using hnot)

theorem Cursor.Moved.text_used {c next : Cursor} {used : Bytes} (h : c.Moved next used) :
    c.text ⟨c.pos, next.pos⟩ = used := by
  rw [Cursor.text, h.1, h.2]
  simp [Bytes.slice]

theorem Attribute.scan_name {c : Cursor} {b : UInt8} {r : Bytes} (hr : c.rest = b :: r) :
    (Attribute.scan c).1.name = b :: r.takeWhile (!isKeyEnd ·) := by
  have hname := ((Cursor.moved_cons hr).trans (Cursor.moved_skip (!isKeyEnd ·) ⟨c.pos + 1, r⟩)).text_used
  unfold Attribute.scan
  rw [show c.rest.drop 1 = r by rw [hr]; rfl]
  dsimp only
  repeat' split
  all_goals exact hname

namespace Word

variable {w : Bytes}

theorem noSpace (hw : Word w) : ∀ b ∈ w, isSpace b = false := fun b hb => by
  have := (hw.plain b hb).1
  simp only [isKeyEnd, isNameEnd, Bool.or_eq_false_iff] at this
  exact this.1.1.1

theorem noBreak (hw : Word w) : ∀ b ∈ w, isBreak b = false := fun b hb => by
  have := (hw.plain b hb).1
  simp only [isKeyEnd, isNameEnd, Bool.or_eq_false_iff] at this
  simp only [isBreak, this.1.1.1, this.1.1.2, Bool.or_false]

theorem noValueEnd (hw : Word w) : ∀ b ∈ w, isValueEnd b = false := fun b hb => by
  have := (hw.plain b hb).1
  simp only [isKeyEnd, isNameEnd, Bool.or_eq_false_iff] at this
  simp only [isValueEnd, this.1.1.1, this.1.2, Bool.or_false]

theorem not_mem_of_isQuote (hw : Word w) {q : UInt8} (hq : isQuote q = true) : q ∉ w := by
  intro hmem
  rw [(hw.plain q hmem).2.1] at hq
  cases hq

/-- A word behind a cursor is in the attribute that is read next, or behind it. -/
theorem infix_scan (hw : Word w) {c : Cursor} (hc : c.rest ≠ []) (h : w <:+: c.rest) :
    w <:+: (Attribute.scan c).1.name ∨ w <:+: (Attribute.scan c).1.value ∨ w <:+: (Attribute.scan c).2.rest := by
  have hkey : ∀ b ∈ w, (!isKeyEnd b) = true := fun b hb => by rw [(hw.plain b hb).1]; rfl
  have hvalue : ∀ b ∈ w, (!isValueEnd b) = true := fun b hb => by rw [hw.noValueEnd b hb]; rfl
  obtain ⟨b, r, hr⟩ := List.exists_cons_of_ne_nil hc
  have h1 := (Cursor.moved_cons hr).trans (Cursor.moved_skip (!isKeyEnd ·) ⟨c.pos + 1, r⟩)
  rw [hr] at h
  rcases infix_takeWhile (a := [b]) hw.nonempty hkey h with h | hafter
  · left
    rw [show [b] ++ r.takeWhile (!isKeyEnd ·) = (Attribute.scan c).1.name by rw [Attribute.scan_name hr]; rfl] at h
    exact h
  right
  unfold Attribute.scan
  rw [show c.rest.drop 1 = r by rw [hr]; rfl]
  have hafter : w <:+: (Cursor.skip (!isKeyEnd ·) ⟨c.pos + 1, r⟩).rest := hafter
  generalize Cursor.skip (!isKeyEnd ·) ⟨c.pos + 1, r⟩ = after at h1 hafter
  have h2 := h1.trans (Cursor.moved_skip isSpace after)
  have hsign : w <:+: (after.skip isSpace).rest := infix_dropWhile hw.nonempty hw.noSpace hafter
  dsimp only
  generalize after.skip isSpace = sign at h2 hsign
  split
  · next x r' hx =>
    split
    · next heq =>
      have hr' : w <:+: r' := by
        rw [hx] at hsign
        refine infix_tail hw.nonempty (fun hmem => ?_) hsign
        have := (hw.plain x hmem).1
        simp [isKeyEnd, heq] at this
      have h3 := (h2.trans (Cursor.moved_cons hx)).trans (Cursor.moved_skip isSpace _)
      have hfirst : w <:+: (Cursor.skip isSpace ⟨sign.pos + 1, r'⟩).rest := infix_dropWhile hw.nonempty hw.noSpace hr'
      generalize Cursor.skip isSpace ⟨sign.pos + 1, r'⟩ = first at h3 hfirst
      split
      · next q s hq =>
        split
        · next hquote =>
          have hq' := hw.not_mem_of_isQuote hquote
          have h4 := h3.trans (Cursor.moved_cons hq)
          have htext := (h4.text_eq (Nat.le_refl _)).trans
            (Cursor.moved_skip (· != q) ⟨first.pos + 1, s⟩).text_used
          rw [hq] at hfirst
          have hs : w <:+: [] ++ s := infix_tail hw.nonempty hq' hfirst
          have hne : ∀ b ∈ w, (b != q) = true := fun b hb => bne_iff_ne.mpr fun he => hq' (he ▸ hb)
          rcases infix_takeWhile hw.nonempty hne hs with h | h
          · exact Or.inl ((congrArg (w <:+: ·) htext).mpr h)
          · right
            have h : w <:+: (Cursor.skip (· != q) ⟨first.pos + 1, s⟩).rest := h
            split
            · next hnil => rwa [hnil] at h
            · next y t hy =>
              rw [hy] at h
              refine infix_tail hw.nonempty (fun hmem => ?_) h
              have hlast := isSpace_head_dropWhile (p := (· != q)) hy
              obtain rfl : y = q := by simpa using hlast
              exact hq' hmem
        · have htext := (h3.text_eq (Nat.le_refl _)).trans (Cursor.moved_skip (!isValueEnd ·) first).text_used
          rcases infix_takeWhile (a := []) hw.nonempty hvalue hfirst with h | h
          · exact Or.inl ((congrArg (w <:+: ·) htext).mpr h)
          · exact Or.inr h
      · exact Or.inr hfirst
    · exact Or.inr hafter
  · exact Or.inr hafter

/-- A word behind a cursor is in one of the attributes, or behind the last one. -/
theorem infix_scanAll (hw : Word w) {c : Cursor} (h : w <:+: c.rest) :
    (∃ a ∈ Attribute.scanAll c, w <:+: a.name ∨ w <:+: a.value) ∨
      ∃ next used, c.Moved next used ∧ w <:+: next.rest ∧
        next.pos = (Attribute.scanAll c).getLast?.elim c.pos fun a => a.span.stop := by
  induction hn : c.rest.length using Nat.strong_induction_on generalizing c with
  | _ n ih =>
  subst hn
  rcases Attribute.scanAll_cases c with ⟨hall, -⟩ | ⟨x, r, hx, -, hall⟩
  · rw [hall]
    exact Or.inr ⟨c, [], ⟨rfl, rfl⟩, h, rfl⟩
  have hne : (c.skip isBreak).rest ≠ [] := by rw [hx]; simp
  obtain ⟨used, hat⟩ := Attribute.scan_spec _ hne
  have hlt := Nat.lt_of_lt_of_le (Attribute.scan_length_lt _ hne) (Cursor.skip_length_le _ c)
  rw [hall]
  have hskip : w <:+: (c.skip isBreak).rest := infix_dropWhile hw.nonempty hw.noBreak h
  rcases or_assoc.mpr (hw.infix_scan hne hskip) with h | h
  · exact Or.inl ⟨_, List.mem_cons_self .., h⟩
  · rcases ih _ hlt h rfl with ⟨a, ha, h⟩ | ⟨next, used', hmoved, h, hpos⟩
    · exact Or.inl ⟨a, List.mem_cons_of_mem _ ha, h⟩
    · refine Or.inr ⟨next, _, ((Cursor.moved_skip isBreak c).trans hat.moved).trans hmoved, h, ?_⟩
      rw [hpos, List.getLast?_cons]
      cases (Attribute.scanAll (Attribute.scan (c.skip isBreak)).2).getLast? with
      | none => simp [hat.span]
      | some a => rfl

/-- A word in a start tag is in the name of the tag, or in an attribute. -/
theorem infix_tag (hw : Word w) {tag : Bytes} {selfClosing : Bool} (htag : IsStartTag tag selfClosing)
    (h : w <:+: tag) : w <:+: startTagName tag ∨ ∃ k ∈ (Element.ofTag tag).keys, w <:+: k.1 ∨ w <:+: k.2 := by
  have hname : ∀ b ∈ w, (!isNameEnd b) = true := by
    intro b hb
    have := (hw.plain b hb).1
    simp only [isKeyEnd, Bool.or_eq_false_iff] at this
    simp [this.1]
  obtain ⟨used, breaks, hcut, hpos⟩ := htag.exists_attributesCut (p := 0) .nil none
  have hdrop : tag.drop 1 = used ++ (breaks ++ [62]) := by rw [hcut.split]; rfl
  have h : w <:+: [] ++ tag.drop 1 := by
    rw [hcut.split] at h ⊢
    exact infix_tail hw.nonempty (fun hm => (hw.plain 60 hm).2.2 rfl) h
  rcases infix_takeWhile hw.nonempty hname h with h | h
  · exact Or.inl h
  rcases hw.infix_scanAll (c := Cursor.skip (!isNameEnd ·) ⟨1, tag.drop 1⟩) h with ⟨a, ha, h⟩ | ⟨next, _, hmoved, h, hlast⟩
  · rw [← Source.keys_node 0 tag selfClosing .nil none]
    exact Or.inr ⟨a.key, List.mem_map_of_mem ha, h⟩
  -- only breaks stand behind the last attribute
  have hall := (Cursor.moved_skip (!isNameEnd ·) ⟨1, tag.drop 1⟩).trans hmoved
  have hend : next.pos = 1 + used.length := by
    have hattrs : (Source.node 0 tag selfClosing .nil none).attrs =
        Attribute.scanAll (Cursor.skip (!isNameEnd ·) ⟨1, tag.drop 1⟩) := rfl
    rw [hlast, ← Nat.zero_add 1, ← hpos, Element.attributePos, hattrs]
    cases (Attribute.scanAll (Cursor.skip (!isNameEnd ·) ⟨1, tag.drop 1⟩)).getLast? with
    | none => simp [Source.node, Element.startTag, Element.name, Element.tag, Cursor.skip, startTagName]
    | some a => rfl
  have hrest : next.rest = breaks ++ [62] := by
    have hsplit := hall.1
    have hlen := hall.2
    dsimp only at hsplit hlen
    rw [hdrop] at hsplit hlen
    exact (List.append_inj_right hsplit (by omega)).symm
  obtain ⟨b, hb⟩ := List.exists_mem_of_ne_nil w hw.nonempty
  rw [hrest] at h
  rcases List.mem_append.mp (h.subset hb) with hm | hm
  · have := hcut.breaks b hm
    rw [hw.noBreak b hb] at this
    cases this
  · have := (hw.plain b hb).1
    rw [List.mem_singleton.mp hm] at this
    cases this

end Word

/-- Attributes are read from the text of a start tag. -/
theorem infix_of_mem_keys {tag : Bytes} {k : Bytes × Bytes} (h : k ∈ (Element.ofTag tag).keys) :
    k.1 <:+: tag ∧ k.2 <:+: tag := by
  obtain ⟨a, ha, rfl⟩ := List.mem_map.mp h
  have hsound := (Attribute.scanAll_spec (Cursor.skip (!isNameEnd ·) ⟨1, tag.drop 1⟩)).1 a ha
  have htext (s : Span) : (Cursor.skip (!isNameEnd ·) ⟨1, tag.drop 1⟩).text s <:+: tag :=
    ((List.drop_suffix _ _).isInfix.trans ( List.take_prefix _ _).isInfix).trans
      ((List.dropWhile_suffix _).isInfix.trans (List.drop_suffix 1 tag).isInfix)
  rw [Attribute.key, hsound.nameText, hsound.valueText]
  exact ⟨htext _, htext _⟩

end Codemod.Markup
