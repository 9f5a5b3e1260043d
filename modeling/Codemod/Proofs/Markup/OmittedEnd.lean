import Codemod.Proofs.Markup.Parsed
import Mathlib.Data.List.Induction

namespace Codemod.Markup

/-- The end tag of the element was omitted: the start tag of `next` ended it. -/
structure Element.EndedBy (e next : Element) : Prop where
  omitted : e.endTag = none
  stop : e.stop = next.startTag.start
  closes : closesImplicitly e.name next.name = true

/-- The elements and the start tags that can end both such an element and one that it holds. -/
def regroupings : List (Bytes × Bytes) :=
  [("optgroup", "optgroup"), ("thead", "tbody"), ("thead", "tfoot"), ("tbody", "tbody"), ("tbody", "tfoot"),
    ("tr", "tr")]

theorem exists_of_closesImplicitly {name next : Bytes} (h : closesImplicitly name next = true) :
    ∃ ends, (name, ends) ∈ optionalEnds ∧ next ∈ ends := by
  unfold closesImplicitly at h
  cases hl : optionalEnds.lookup name with
  | none => simp [hl] at h
  | some ends =>
    obtain ⟨before, after, hsplit, -⟩ := List.lookup_eq_some_iff.mp hl
    exact ⟨ends, by rw [hsplit]; simp, by simpa [hl] using h⟩

/-- The elements of the regroupings are there with all the start tags that can end them. -/
theorem regroupings_complete : ∀ x ∈ regroupings, closesImplicitly x.1 x.2 = true ∧
    ∀ y ∈ optionalEnds, y.1 = x.1 → ∀ c ∈ y.2, (x.1, c) ∈ regroupings := by
  decide +kernel

theorem closesImplicitly_of_mem {x : Bytes × Bytes} (h : x ∈ regroupings) : closesImplicitly x.1 x.2 = true :=
  (regroupings_complete x h).1

/-- A start tag that ends two elements ends the one together with the other, or the other could not
have started inside the one. -/
theorem regroupings_or_closesImplicitly {outer inner next : Bytes} (houter : closesImplicitly outer next = true)
    (hinner : closesImplicitly inner next = true) :
    (outer, next) ∈ regroupings ∨ closesImplicitly outer inner = true := by
  have hall : ∀ x ∈ optionalEnds, ∀ y ∈ optionalEnds, ∀ c ∈ x.2, c ∈ y.2 →
      (x.1, c) ∈ regroupings ∨ closesImplicitly x.1 y.1 = true := by
    decide +kernel
  obtain ⟨xs, hx, hcx⟩ := exists_of_closesImplicitly houter
  obtain ⟨ys, hy, hcy⟩ := exists_of_closesImplicitly hinner
  exact hall _ hx _ hy _ hcx hcy

theorem mem_regroupings {outer next next' : Bytes} (h : (outer, next) ∈ regroupings)
    (hcloses : closesImplicitly outer next' = true) : (outer, next') ∈ regroupings := by
  obtain ⟨ys, hy, hcy⟩ := exists_of_closesImplicitly hcloses
  exact (regroupings_complete _ h).2 _ hy rfl _ hcy

namespace Source

variable {s : Source} {outer : Bytes} {held : List Bytes} {p : Nat} {before after : List Element} {child : Element}

/-- A start tag that would end the parent has ended what is open in front of it: what was held open
there, or the child before. -/
theorem endedBy_or_held (hs : s.Nested (some outer) held) (hbuild : s.build p = before ++ child :: after)
    (hcloses : closesImplicitly outer child.name = true) :
    (before = [] ∧ child.startTag.start = p ∧ ∃ last, held = [last] ∧ closesImplicitly last child.name = true) ∨
      ∃ sibling ∈ before.getLast?, sibling.EndedBy child := by
  induction s generalizing held p before with
  | nil => simp [build] at hbuild
  | gap g next ih =>
    rcases ih hs.2 hbuild with ⟨-, -, last, hlast, -⟩ | h
    · cases hlast
    · exact Or.inr h
  | element tag selfClosing inner close next _ ih =>
    rw [build_element] at hbuild
    cases before with
    | nil =>
      obtain ⟨rfl, -⟩ := List.cons.inj hbuild
      have hname : (node p tag selfClosing inner close).name = startTagName tag := StartTag.scan_name ..
      rw [hname] at hcloses ⊢
      refine Or.inl ⟨rfl, rfl, ?_⟩
      obtain ⟨henters, -⟩ := hs
      rcases held with _ | ⟨last, _ | ⟨other, held⟩⟩
      · exact absurd (henters outer rfl) (by simp [hcloses])
      · exact ⟨last, rfl, henters⟩
      · exact henters.elim
    | cons e before =>
      obtain ⟨rfl, hrest⟩ := List.cons.inj hbuild
      rw [List.getLast?_cons]
      rcases ih hs.2.2 hrest with ⟨rfl, hstart, last, hlast, hends⟩ | ⟨sibling, hmem, hended⟩
      · -- The child is the first behind this element, which its start tag has ended.
        split at hlast
        · cases hlast
        · next hopen =>
          simp only [Bool.or_eq_true, Option.isSome_iff_ne_none, not_or, ne_eq, not_not] at hopen
          obtain ⟨-, rfl⟩ := hopen
          have hlast : startTagName tag = last := by simpa using congrArg List.getLast? hlast
          refine Or.inr ⟨_, rfl, rfl, ?_, ?_⟩
          · rw [hstart]
            rfl
          · have hname : (node p tag selfClosing inner none).name = startTagName tag := StartTag.scan_name ..
            rw [List.getLast?_nil, Option.getD_none, hname, hlast]
            exact hends
      · refine Or.inr ⟨sibling, ?_, hended⟩
        rw [hmem]
        rfl

/-- Where that happens, the parent is one that can be ended together with what it holds. -/
theorem mem_regroupings_of_build (hs : s.Nested (some outer) []) (hbuild : s.build p = before ++ child :: after)
    (hcloses : closesImplicitly outer child.name = true) : (outer, child.name) ∈ regroupings := by
  induction before using List.reverseRecOn generalizing child after with
  | nil =>
    rcases endedBy_or_held hs hbuild hcloses with ⟨-, -, last, hlast, -⟩ | ⟨sibling, hmem, -⟩
    · cases hlast
    · cases hmem
  | append_singleton before sibling ih =>
    rcases endedBy_or_held hs hbuild hcloses with ⟨-, -, last, hlast, -⟩ | ⟨found, hmem, hended⟩
    · cases hlast
    rw [List.getLast?_concat] at hmem
    obtain rfl := Option.some.inj hmem
    rcases regroupings_or_closesImplicitly hcloses hended.closes with h | h
    · exact h
    · -- The sibling should not stand here either, so there is one before it, and so on.
      rw [List.append_assoc] at hbuild
      exact mem_regroupings (ih hbuild h) hcloses

/-- What an element of a tree holds is nested in it. -/
theorem Nested.exists_children {parent : Option Bytes} (hs : s.Nested parent held) {above : List Element}
    {place : Place} (hplace : place ∈ Element.placesIn above (s.build p)) :
    ∃ inner q, Nested (some place.element.name) [] inner ∧ place.element.children = inner.build q := by
  induction s generalizing parent held p above with
  | nil => simp [build, Element.placesIn] at hplace
  | gap g next ih => exact ih hs.2 hplace
  | element tag selfClosing inner close next ih1 ih2 =>
    rcases mem_placesIn_element.mp hplace with rfl | hplace | hplace
    · refine ⟨inner, _, ?_, rfl⟩
      have hname : (node p tag selfClosing inner close).name = startTagName tag := StartTag.scan_name ..
      rw [hname]
      exact hs.inner
    · exact ih1 hs.inner hplace
    · exact ih2 hs.2.2 hplace

end Source

/-- Of the open elements a start tag ends the innermost one only. So an element whose start tag would
end its parent stands right behind a child that this start tag has ended, and the parent is one of those
that can be ended together with what they hold; everywhere else optional end tags are honoured. -/
theorem closesImplicitly_child_iff {path content : Bytes} {d : Document} (h : Document.parse path content = .ok d)
    {place : Place} (hplace : place ∈ d.places) {before after : List Element} {child : Element}
    (hchildren : place.element.children = before ++ child :: after) :
    closesImplicitly place.element.name child.name = true ↔
      (place.element.name, child.name) ∈ regroupings ∧ ∃ sibling ∈ before.getLast?, sibling.EndedBy child := by
  obtain ⟨s, hs, rfl, rfl⟩ := exists_source h
  obtain ⟨inner, q, hinner, hbuild⟩ := hs.nested.exists_children hplace
  rw [hchildren] at hbuild
  refine ⟨fun hcloses => ⟨Source.mem_regroupings_of_build hinner hbuild.symm hcloses, ?_⟩,
    fun hboth => closesImplicitly_of_mem hboth.1⟩
  rcases Source.endedBy_or_held hinner hbuild.symm hcloses with ⟨-, -, last, hlast, -⟩ | hended
  · cases hlast
  · exact hended

/-- In a table without end tags the second row stands in the first, behind the cell that it has ended. -/
theorem closesImplicitly_child_iff_row :
    ∃ d, Document.parse "a.html" "<table><tr><td>a<tr><td>b</table>" = .ok d ∧
      ∃ place ∈ d.places, ∃ before child after, place.element.children = before ++ child :: after ∧
        place.element.name = "tr" ∧ ∃ sibling ∈ before.getLast?, sibling.EndedBy child := by
  have hrow : (Document.parse "a.html" "<table><tr><td>a<tr><td>b</table>").toOption.map
      (·.places.any fun place => place.element.name = "tr" ∧
        place.element.children.any (closesImplicitly place.element.name ·.name)) = some true := by
    decide +kernel
  cases h : Document.parse "a.html" "<table><tr><td>a<tr><td>b</table>" with
  | error e =>
    rw [h] at hrow
    cases hrow
  | ok d =>
    rw [h] at hrow
    obtain ⟨place, hplace, hboth⟩ := List.any_eq_true.mp (Option.some.inj hrow)
    obtain ⟨hname, hchild⟩ := of_decide_eq_true hboth
    obtain ⟨child, hmem, hcloses⟩ := List.any_eq_true.mp hchild
    obtain ⟨before, after, hchildren⟩ := List.append_of_mem hmem
    exact ⟨d, rfl, place, hplace, before, child, after, hchildren, hname,
      ((closesImplicitly_child_iff h hplace hchildren).mp hcloses).2⟩

theorem row_inside_row : ¬∀ (path content : Bytes) (d : Document), Document.parse path content = .ok d →
    ∀ place ∈ d.places, ∀ child ∈ place.element.children,
      closesImplicitly place.element.name child.name = false := by
  intro hall
  have hrow : (Document.parse "a.html" "<table><tr><td>a<tr><td>b</table>").toOption.map
      (·.places.all fun place => place.element.children.all fun child =>
        !closesImplicitly place.element.name child.name) = some false := by
    decide +kernel
  cases h : Document.parse "a.html" "<table><tr><td>a<tr><td>b</table>" with
  | error e =>
    rw [h] at hrow
    cases hrow
  | ok d =>
    rw [h] at hrow
    have hnone := Option.some.inj hrow
    refine absurd hnone (Bool.not_eq_false _ ▸ List.all_eq_true.mpr fun place hplace => ?_)
    refine List.all_eq_true.mpr fun child hchild => ?_
    rw [hall _ _ d h place hplace child hchild]
    rfl

end Codemod.Markup
