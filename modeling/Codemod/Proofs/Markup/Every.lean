import Codemod.Proofs.Markup.Enclose

namespace Codemod.Markup

/-- An attribute without its place. -/
def Attribute.key (a : Attribute) : Bytes × Bytes := (a.name, a.value)

/-- An attribute without its place, but with the way it is written. -/
def Attribute.form (a : Attribute) : (Bytes × Bytes) × Option UInt8 × Bool := (a.key, a.quote, a.hasValue)

theorem Attribute.scan_form (p q : Nat) (r : Bytes) :
    (Attribute.scan ⟨p, r⟩).1.form = (Attribute.scan ⟨q, r⟩).1.form ∧
      (Attribute.scan ⟨p, r⟩).2.rest = (Attribute.scan ⟨q, r⟩).2.rest := by
  simp only [Attribute.scan, Cursor.skip, Attribute.form, Attribute.key, Nat.add_assoc, Nat.sub_self,
    Nat.add_sub_cancel_left]
  cases List.dropWhile isSpace (List.dropWhile (!isKeyEnd ·) (List.drop 1 r)) with
  | nil => exact ⟨rfl, rfl⟩
  | cons x s =>
    dsimp only
    split
    · cases List.dropWhile isSpace s with
      | nil => exact ⟨rfl, rfl⟩
      | cons y t =>
        dsimp only
        split
        · cases List.dropWhile (· != y) t <;> exact ⟨rfl, rfl⟩
        · exact ⟨rfl, rfl⟩
    · exact ⟨rfl, rfl⟩

theorem Attribute.scanAll_form (p q : Nat) (r : Bytes) :
    (Attribute.scanAll ⟨p, r⟩).map Attribute.form = (Attribute.scanAll ⟨q, r⟩).map Attribute.form := by
  induction hn : r.length using Nat.strong_induction_on generalizing p q r with
  | _ n ih =>
  subst hn
  have hskip : (Cursor.skip isBreak ⟨p, r⟩).rest = (Cursor.skip isBreak ⟨q, r⟩).rest := rfl
  rcases Attribute.scanAll_cases ⟨p, r⟩ with ⟨hp, hend⟩ | ⟨x, s, hx, hne, hp⟩
  · rcases Attribute.scanAll_cases ⟨q, r⟩ with ⟨hq, -⟩ | ⟨y, t, hy, hne, -⟩
    · rw [hp, hq]
    · exact absurd (hend y (by rw [hskip, hy]; rfl)) hne
  · rcases Attribute.scanAll_cases ⟨q, r⟩ with ⟨-, hend⟩ | ⟨y, t, hy, -, hq⟩
    · exact absurd (hend x (by rw [← hskip, hx]; rfl)) hne
    · rw [hp, hq, List.map_cons, List.map_cons]
      obtain ⟨hform, hrest⟩ := Attribute.scan_form (p + (r.takeWhile isBreak).length)
        (q + (r.takeWhile isBreak).length) (r.dropWhile isBreak)
      have hlen := Attribute.scan_length_lt (Cursor.skip isBreak ⟨p, r⟩) (by rw [hx]; simp)
      have hle := Cursor.skip_length_le isBreak ⟨p, r⟩
      have hnext := ih _ (Nat.lt_of_lt_of_le hlen hle) (Attribute.scan (Cursor.skip isBreak ⟨p, r⟩)).2.pos
        (Attribute.scan (Cursor.skip isBreak ⟨q, r⟩)).2.pos (Attribute.scan (Cursor.skip isBreak ⟨p, r⟩)).2.rest rfl
      refine congrArg₂ List.cons hform (hnext.trans ?_)
      congr 2
      exact congrArg (Cursor.mk _) hrest

theorem Attribute.scanAll_key (p q : Nat) (r : Bytes) :
    (Attribute.scanAll ⟨p, r⟩).map Attribute.key = (Attribute.scanAll ⟨q, r⟩).map Attribute.key := by
  have hform := congrArg (List.map Prod.fst) (Attribute.scanAll_form p q r)
  rw [List.map_map, List.map_map] at hform
  exact hform

/-- The attributes of an element without their places. -/
def Element.keys (e : Element) : List (Bytes × Bytes) := e.attrs.map Attribute.key

/-- An element of a start tag, standing alone. -/
def Element.ofTag (tag : Bytes) : Element := Source.node 0 tag false .nil none

/-- What an element is called and its attributes depend on its start tag only. -/
theorem Source.keys_node (p : Nat) (tag : Bytes) (selfClosing : Bool) (inner : Source) (close : Option Bytes) :
    (Source.node p tag selfClosing inner close).keys = (Element.ofTag tag).keys :=
  Attribute.scanAll_key _ _ _

theorem Source.name_node (p : Nat) (tag : Bytes) (selfClosing : Bool) (inner : Source) (close : Option Bytes) :
    (Source.node p tag selfClosing inner close).name = startTagName tag := StartTag.scan_name ..

theorem Element.hasAttribute_eq (e : Element) (names : List Bytes) :
    e.hasAttribute names = e.keys.any fun k => names.contains k.1 := by
  rw [Element.hasAttribute, Element.keys, List.any_map]
  rfl

theorem Element.attribute?_value (e : Element) (names : List Bytes) :
    (e.attribute? names).map Attribute.value = (e.keys.find? fun k => names.contains k.1).map Prod.snd := by
  rw [Element.attribute?, Element.keys, List.find?_map, Option.map_map]
  rfl

namespace Source

/-- A property of every element: of its start tag, its content and its end tag. -/
def Every (P : Bytes → Source → Option Bytes → Prop) : Source → Prop
  | nil => True
  | gap _ next => next.Every P
  | element tag _ inner close next => P tag inner close ∧ inner.Every P ∧ next.Every P

/-- Some child has a start tag of a kind. -/
def anyChild (select : Bytes → Bool) : Source → Bool
  | nil => false
  | gap _ next => next.anyChild select
  | element tag _ _ _ next => select tag || next.anyChild select

/-- What follows the first child of a name. -/
def after? (name : Bytes) : Source → Option Source
  | nil => none
  | gap _ next => next.after? name
  | element tag _ _ _ next => if startTagName tag = name then some next else next.after? name

variable {P Q : Bytes → Source → Option Bytes → Prop} {s : Source}

theorem Every.imp (hPQ : ∀ tag inner close, P tag inner close → Q tag inner close) (h : s.Every P) : s.Every Q := by
  induction s with
  | nil => trivial
  | gap g next ih => exact ih h
  | element tag selfClosing inner close next ih1 ih2 => exact ⟨hPQ _ _ _ h.1, ih1 h.2.1, ih2 h.2.2⟩

theorem Every.and (hp : s.Every P) (hq : s.Every Q) :
    s.Every fun tag inner close => P tag inner close ∧ Q tag inner close := by
  induction s with
  | nil => trivial
  | gap g next ih => exact ih hp hq
  | element tag selfClosing inner close next ih1 ih2 =>
    exact ⟨⟨hp.1, hq.1⟩, ih1 hp.2.1 hq.2.1, ih2 hp.2.2 hq.2.2⟩

theorem Every.inside (h : s.Every P) : s.Every fun _ inner _ => inner.Every P := by
  induction s with
  | nil => trivial
  | gap g next ih => exact ih h
  | element tag selfClosing inner close next ih1 ih2 => exact ⟨h.2.1, ih1 h.2.1, ih2 h.2.2⟩

theorem Every.after? (h : s.Every P) {name : Bytes} {body : Source} (hbody : s.after? name = some body) :
    body.Every P := by
  induction s with
  | nil => cases hbody
  | gap g next ih => exact ih h hbody
  | element tag selfClosing inner close next _ ih =>
    rw [Source.after?] at hbody
    split at hbody
    · cases hbody
      exact h.2.2
    · exact ih h.2.2 hbody

theorem every_append (a b : Source) : (a.append b).Every P ↔ a.Every P ∧ b.Every P := by
  induction a with
  | nil => simp [append, Every]
  | gap g next ih => exact ih
  | element tag selfClosing inner close next _ ih => simp only [append, Every, ih, and_assoc]

theorem every_foldr_gap (gaps : List Gap) : (gaps.foldr gap s).Every P ↔ s.Every P := by
  induction gaps with
  | nil => exact Iff.rfl
  | cons g gaps ih => exact ih

theorem anyChild_append (select : Bytes → Bool) (a b : Source) :
    (a.append b).anyChild select = (a.anyChild select || b.anyChild select) := by
  induction a with
  | nil => rfl
  | gap g next ih => exact ih
  | element tag selfClosing inner close next _ ih => simp only [append, anyChild, ih, Bool.or_assoc]

theorem anyChild_foldr_gap (select : Bytes → Bool) (gaps : List Gap) :
    (gaps.foldr gap s).anyChild select = s.anyChild select := by
  induction gaps with
  | nil => rfl
  | cons g gaps ih => exact ih

theorem after?_foldr_gap (name : Bytes) (gaps : List Gap) : (gaps.foldr gap s).after? name = s.after? name := by
  induction gaps with
  | nil => rfl
  | cons g gaps ih => exact ih

theorem append_nil (s : Source) : s.append nil = s := by
  induction s with
  | nil => rfl
  | gap g next ih => rw [append, ih]
  | element tag selfClosing inner close next _ ih => rw [append, ih]

/-- The children of an element that are of a kind which their start tags decide. -/
theorem any_build {select : Element → Bool} {kind : Bytes → Bool}
    (h : ∀ p tag selfClosing inner close, select (node p tag selfClosing inner close) = kind tag) (p : Nat) :
    (s.build p).any select = s.anyChild kind := by
  induction s generalizing p with
  | nil => rfl
  | gap g next ih => exact ih _
  | element tag selfClosing inner close next _ ih => rw [build_element, List.any_cons, h, anyChild, ih]

theorem each_of_every (h : s.Every P) (above : List Element) (p : Nat) :
    s.Each (fun x => P x.tag x.inner x.close) above p := by
  induction s generalizing above p with
  | nil => trivial
  | gap g next ih => exact ih h _ _
  | element tag selfClosing inner close next ih1 ih2 => exact ⟨h.1, ih1 h.2.1 _ _, ih2 h.2.2 _ _⟩

theorem every_of_each {above : List Element} {p : Nat} (h : s.Each (fun x => P x.tag x.inner x.close) above p) :
    s.Every P := by
  induction s generalizing above p with
  | nil => trivial
  | gap g next ih => exact ih h
  | element tag selfClosing inner close next ih1 ih2 => exact ⟨h.1, ih1 h.2.1, ih2 h.2.2⟩

theorem Each.and {R S : Spot → Prop} {above : List Element} {p : Nat} (hr : s.Each R above p)
    (hs : s.Each S above p) : s.Each (fun x => R x ∧ S x) above p := by
  induction s generalizing above p with
  | nil => trivial
  | gap g next ih => exact ih hr hs
  | element tag selfClosing inner close next ih1 ih2 =>
    exact ⟨⟨hr.1, hs.1⟩, ih1 hr.2.1 hs.2.1, ih2 hr.2.2 hs.2.2⟩

/-- What holds of every element holds of those inside each of them. -/
theorem Each.inside {R : Spot → Prop} {above : List Element} {p : Nat} (h : s.Each R above p) :
    s.Each (fun x => x.inner.Each R (x.element :: x.above) (x.pos + x.tag.length)) above p := by
  induction s generalizing above p with
  | nil => trivial
  | gap g next ih => exact ih h
  | element tag selfClosing inner close next ih1 ih2 => exact ⟨h.2.1, ih1 h.2.1, ih2 h.2.2⟩

theorem Each.exists_spot {R : Spot → Prop} {above : List Element} {p : Nat} (h : s.Each R above p) {place : Place}
    (hplace : place ∈ Element.placesIn above (s.build p)) : ∃ x : Spot, x.place = place ∧ R x := by
  induction s generalizing above p with
  | nil => simp [build, Element.placesIn] at hplace
  | gap g next ih => exact ih h hplace
  | element tag selfClosing inner close next ih1 ih2 =>
    rcases mem_placesIn_element.mp hplace with rfl | hplace | hplace
    · exact ⟨_, rfl, h.1⟩
    · exact ih1 h.2.1 hplace
    · exact ih2 h.2.2 hplace

/-- The text that stands behind the first child of a name. -/
theorem render_after? {name : Bytes} {body : Source} (h : s.after? name = some body) :
    ∃ front, render s.pieces = front ++ render body.pieces ∧
      ∀ p, s.headerStop? name p = some (p + front.length) := by
  induction s with
  | nil => cases h
  | gap g next ih =>
    obtain ⟨front, hfront, hstop⟩ := ih h
    refine ⟨g.raw ++ front, by rw [pieces, render_cons, render_piece, hfront, List.append_assoc], fun p => ?_⟩
    rw [headerStop?, hstop, List.length_append, Nat.add_assoc]
  | element tag selfClosing inner close next _ ih =>
    have hrender : render (element tag selfClosing inner close next).pieces =
        (tag ++ (render inner.pieces ++ close.getD [])) ++ render next.pieces := by
      cases close <;> simp [pieces, Piece.raw]
    have hlen : (tag ++ (render inner.pieces ++ close.getD [])).length =
        tag.length + inner.size + (close.getD []).length := by
      simp [length_render, Nat.add_assoc]
    rw [after?] at h
    split at h
    · next hname =>
      cases h
      refine ⟨_, hrender, fun p => ?_⟩
      rw [headerStop?, if_pos hname, hlen, Nat.add_assoc, Nat.add_assoc, Nat.add_assoc]
    · next hname =>
      obtain ⟨front, hfront, hstop⟩ := ih h
      refine ⟨(tag ++ (render inner.pieces ++ close.getD [])) ++ front, by rw [hrender, hfront]; simp, fun p => ?_⟩
      rw [headerStop?, if_neg hname]
      rw [hstop, List.length_append, hlen]
      simp [Nat.add_assoc]

end Source

end Codemod.Markup
