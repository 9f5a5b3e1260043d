import Codemod.Markup.Document
import Codemod.Proofs.Markup.TagReading

namespace Codemod.Markup

/-- The inner range lies within the outer one, with its ends in order. -/
def Span.Within (inner outer : Span) : Prop :=
  outer.start ≤ inner.start ∧ inner.start ≤ inner.stop ∧ inner.stop ≤ outer.stop

/-- A cursor that has moved on over some bytes. -/
def Cursor.Moved (c next : Cursor) (used : Bytes) : Prop :=
  c.rest = used ++ next.rest ∧ next.pos = c.pos + used.length

theorem Cursor.moved_skip (p : UInt8 → Bool) (c : Cursor) : c.Moved (c.skip p) (c.rest.takeWhile p) :=
  ⟨List.takeWhile_append_dropWhile.symm, rfl⟩

theorem Cursor.moved_cons {c : Cursor} {b : UInt8} {r : Bytes} (h : c.rest = b :: r) :
    c.Moved ⟨c.pos + 1, r⟩ [b] := ⟨h, rfl⟩

theorem Cursor.Moved.trans {a b c : Cursor} {s t : Bytes} (h1 : a.Moved b s) (h2 : b.Moved c t) :
    a.Moved c (s ++ t) :=
  ⟨by rw [h1.1, h2.1, List.append_assoc], by rw [h2.2, h1.2, List.length_append, Nat.add_assoc]⟩

theorem Cursor.Moved.pos_le {a b : Cursor} {s : Bytes} (h : a.Moved b s) : a.pos ≤ b.pos := by
  rw [h.2]
  exact Nat.le_add_right ..

/-- The text at a range behind a cursor. -/
def Cursor.text (c : Cursor) (s : Span) : Bytes := c.rest.slice (s.start - c.pos) (s.stop - c.pos)

theorem Cursor.text_empty (c : Cursor) (p : Nat) : c.text ⟨p, p⟩ = [] := by
  simp [Cursor.text, Bytes.slice]

/-- What reading one attribute gives: it stands between the two cursors, its name in front and
its value behind. -/
structure AttributeAt (c : Cursor) (a : Attribute) (next : Cursor) (used : Bytes) : Prop where
  moved : c.Moved next used
  span : a.span = ⟨c.pos, next.pos⟩
  nameStart : a.nameSpan.start = c.pos
  nameStop : a.nameSpan.stop ≤ a.valueSpan.start
  order : c.pos < a.nameSpan.stop
  value : a.valueSpan.start ≤ a.valueSpan.stop
  valueStop : a.valueSpan.stop ≤ next.pos
  nameText : a.name = c.text a.nameSpan
  valueText : a.value = c.text a.valueSpan

theorem Attribute.scan_spec (c : Cursor) (hc : c.rest ≠ []) :
    ∃ used, AttributeAt c (Attribute.scan c).1 (Attribute.scan c).2 used := by
  obtain ⟨b, r, hr⟩ := List.exists_cons_of_ne_nil hc
  have h0 : c.Moved ⟨c.pos + 1, c.rest.drop 1⟩ [b] := by
    rw [hr]
    exact Cursor.moved_cons hr
  have h1 := h0.trans (Cursor.moved_skip (!isKeyEnd ·) _)
  have hafter : c.pos < (Cursor.skip (!isKeyEnd ·) ⟨c.pos + 1, c.rest.drop 1⟩).pos := by
    simp only [Cursor.skip]
    omega
  unfold Attribute.scan
  generalize Cursor.skip (!isKeyEnd ·) ⟨c.pos + 1, c.rest.drop 1⟩ = after at h1 hafter
  have h2 := h1.trans (Cursor.moved_skip isSpace after)
  have hsign := (Cursor.moved_skip isSpace after).pos_le
  dsimp only
  generalize after.skip isSpace = sign at h2 hsign
  have absent : ∃ used, AttributeAt c
      ⟨c.rest.slice (c.pos - c.pos) (after.pos - c.pos), [], none, false, ⟨c.pos, after.pos⟩, ⟨c.pos, after.pos⟩,
        ⟨after.pos, after.pos⟩⟩ after used :=
    ⟨_, h1, rfl, rfl, Nat.le_refl _, hafter, Nat.le_refl _, Nat.le_refl _, rfl, (c.text_empty _).symm⟩
  split
  · next x r hx =>
    split
    · have h3 := (h2.trans (Cursor.moved_cons hx)).trans (Cursor.moved_skip isSpace _)
      have hfirst := (Cursor.moved_skip isSpace ⟨sign.pos + 1, r⟩).pos_le
      generalize Cursor.skip isSpace ⟨sign.pos + 1, r⟩ = first at h3 hfirst
      dsimp only at hfirst
      split
      · next q r' hq =>
        split
        · have h4 := (h3.trans (Cursor.moved_cons hq)).trans (Cursor.moved_skip (· != q) _)
          have hclose := (Cursor.moved_skip (· != q) ⟨first.pos + 1, r'⟩).pos_le
          generalize Cursor.skip (· != q) ⟨first.pos + 1, r'⟩ = close at h4 hclose
          dsimp only at hclose
          split
          · exact ⟨_, h4, rfl, rfl, by dsimp only; omega, hafter, hclose, Nat.le_refl _, rfl, rfl⟩
          · next y r'' hy =>
            exact ⟨_, h4.trans (Cursor.moved_cons hy), rfl, rfl, by dsimp only; omega, hafter, hclose,
              Nat.le_succ _, rfl, rfl⟩
        · have h4 := h3.trans (Cursor.moved_skip (!isValueEnd ·) first)
          have hclose := (Cursor.moved_skip (!isValueEnd ·) first).pos_le
          exact ⟨_, h4, rfl, rfl, by dsimp only; omega, hafter, hclose, Nat.le_refl _, rfl, rfl⟩
      · exact ⟨_, h3, rfl, rfl, by dsimp only; omega, hafter, Nat.le_refl _, Nat.le_refl _, rfl,
          (c.text_empty _).symm⟩
    · exact absent
  · exact absent

/-- White space and slashes between attributes. -/
def isBreak (b : UInt8) : Bool := isSpace b || b == '/'

/-- Reading attributes: none is left, or one is read and then the others. -/
theorem Attribute.scanAll_cases (c : Cursor) :
    (Attribute.scanAll c = [] ∧ ∀ x ∈ (c.skip isBreak).rest.head?, x = 62) ∨
      ∃ x r, (c.skip isBreak).rest = x :: r ∧ x ≠ 62 ∧
        Attribute.scanAll c =
          (Attribute.scan (c.skip isBreak)).1 :: Attribute.scanAll (Attribute.scan (c.skip isBreak)).2 := by
  rw [Attribute.scanAll, show (fun x : UInt8 => isSpace x || x == ('/' : Char).toUInt8) = isBreak from rfl]
  split
  · next hx => exact Or.inl ⟨rfl, by simp [hx]⟩
  · next x r hx =>
    split
    · next hgt =>
      refine Or.inl ⟨rfl, ?_⟩
      rw [hx]
      rintro y ⟨⟩
      exact beq_iff_eq.mp hgt
    · next hgt => exact Or.inr ⟨x, r, hx, fun h => hgt (beq_iff_eq.mpr h), rfl⟩

theorem Cursor.Moved.text_eq {c next : Cursor} {used : Bytes} (h : c.Moved next used) {s : Span}
    (hs : next.pos ≤ s.start) : c.text s = next.text s := by
  have hpos := h.2
  simp only [Cursor.text, Bytes.slice, List.drop_take, h.1]
  rw [List.drop_append, List.drop_eq_nil_of_le (by omega), List.nil_append]
  congr 1
  · omega
  · congr 1
    omega

theorem Cursor.Moved.stop_eq {c next : Cursor} {used : Bytes} (h : c.Moved next used) :
    next.pos + next.rest.length = c.pos + c.rest.length := by
  rw [h.1, h.2, List.length_append, Nat.add_assoc]

/-- An attribute that was read behind a cursor. -/
structure Attribute.Sound (c : Cursor) (a : Attribute) : Prop where
  span : a.span.Within ⟨c.pos, c.pos + c.rest.length⟩
  nameSpan : a.nameSpan.Within a.span
  valueSpan : a.valueSpan.Within a.span
  nameText : a.name = c.text a.nameSpan
  valueText : a.value = c.text a.valueSpan

theorem AttributeAt.sound {c : Cursor} {a : Attribute} {next : Cursor} {used : Bytes}
    (h : AttributeAt c a next used) : a.Sound c := by
  have hstop := h.moved.stop_eq
  have hpos := h.moved.pos_le
  have h1 := h.nameStart
  have h2 := h.nameStop
  have h3 := h.order
  have h4 := h.value
  have h5 := h.valueStop
  refine ⟨?_, ?_, ?_, h.nameText, h.valueText⟩
  all_goals
    rw [h.span]
    simp only [Span.Within]
    omega

theorem Attribute.Sound.of_moved {c next : Cursor} {used : Bytes} {a : Attribute} (h : c.Moved next used)
    (ha : a.Sound next) : a.Sound c := by
  have hstop := h.stop_eq
  have hpos := h.pos_le
  obtain ⟨h1, h2, h3, h4, h5⟩ := ha
  simp only [Span.Within] at h1 h2 h3
  refine ⟨?_, h2, h3, ?_, ?_⟩
  · simp only [Span.Within]
    omega
  · rw [h4, h.text_eq (by omega)]
  · rw [h5, h.text_eq (by omega)]

/-- The attributes behind a cursor, from left to right. -/
theorem Attribute.scanAll_spec (c : Cursor) :
    (∀ a ∈ Attribute.scanAll c, a.Sound c) ∧
      (Attribute.scanAll c).Pairwise fun a b => a.span.stop ≤ b.span.start := by
  induction hn : c.rest.length using Nat.strong_induction_on generalizing c with
  | _ n ih =>
  subst hn
  rcases Attribute.scanAll_cases c with ⟨h, -⟩ | ⟨x, r, hx, -, h⟩
  · simp [h]
  rw [h]
  have hne : (c.skip isBreak).rest ≠ [] := by rw [hx]; simp
  have hskip := Cursor.moved_skip isBreak c
  obtain ⟨used, hat⟩ := Attribute.scan_spec _ hne
  have hlt := Nat.lt_of_lt_of_le (Attribute.scan_length_lt _ hne) (Cursor.skip_length_le _ c)
  obtain ⟨ih1, ih2⟩ := ih _ hlt _ rfl
  refine ⟨?_, List.pairwise_cons.mpr ⟨fun b hb => ?_, ih2⟩⟩
  · intro a ha
    rcases List.mem_cons.mp ha with rfl | ha
    · exact hat.sound.of_moved hskip
    · exact (ih1 a ha).of_moved (hskip.trans hat.moved)
  · rw [hat.span]
    exact (ih1 b hb).span.1

end Codemod.Markup
