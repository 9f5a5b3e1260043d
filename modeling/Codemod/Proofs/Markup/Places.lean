import Codemod.Proofs.Markup.Patch

namespace Codemod.Markup

open Edit

namespace Element

mutual

/-- The elements of a subtree do not depend on what is above it. -/
theorem map_places (above above' : List Element) (e : Element) :
    (e.places above).map Place.element = (e.places above').map Place.element := by
  cases e with
  | node tag children endTag stop =>
    simp only [places, List.map_cons]
    rw [map_placesIn _ (.node tag children endTag stop :: above') children]

theorem map_placesIn (above above' : List Element) (es : List Element) :
    (placesIn above es).map Place.element = (placesIn above' es).map Place.element := by
  cases es with
  | nil => rfl
  | cons e es =>
    simp only [placesIn, List.map_append]
    rw [map_places above above' e, map_placesIn above above' es]

end

mutual

/-- An element stands below each of its ancestors inside the subtree. -/
theorem mem_places {above : List Element} {e : Element} {place : Place} (h : place ∈ e.places above) :
    ∃ inside, place.ancestors = inside ++ above ∧ ∀ a ∈ inside,
      (∃ q ∈ e.places above, q.element = a) ∧ place.element ∈ (placesIn [] a.children).map Place.element := by
  cases e with
  | node tag children endTag stop =>
    rw [places] at h
    rcases List.mem_cons.mp h with rfl | h
    · exact ⟨[], rfl, by simp⟩
    · obtain ⟨inside, hinside, hall⟩ := mem_placesIn' h
      refine ⟨inside ++ [.node tag children endTag stop], by simp [hinside], ?_⟩
      intro a ha
      rcases List.mem_append.mp ha with ha | ha
      · obtain ⟨⟨q, hq, hqa⟩, hbelow⟩ := hall a ha
        exact ⟨⟨q, by rw [places]; exact List.mem_cons_of_mem _ hq, hqa⟩, hbelow⟩
      · rw [List.mem_singleton.mp ha]
        refine ⟨⟨_, by rw [places]; exact List.mem_cons_self .., rfl⟩, ?_⟩
        rw [map_placesIn [] (.node tag children endTag stop :: above)]
        exact List.mem_map_of_mem h

theorem mem_placesIn' {above es : List Element} {place : Place} (h : place ∈ placesIn above es) :
    ∃ inside, place.ancestors = inside ++ above ∧ ∀ a ∈ inside,
      (∃ q ∈ placesIn above es, q.element = a) ∧ place.element ∈ (placesIn [] a.children).map Place.element := by
  cases es with
  | nil => simp [placesIn] at h
  | cons e es =>
    rw [placesIn] at h
    rcases List.mem_append.mp h with h | h
    · obtain ⟨inside, hinside, hall⟩ := mem_places h
      refine ⟨inside, hinside, fun a ha => ?_⟩
      obtain ⟨⟨q, hq, hqa⟩, hbelow⟩ := hall a ha
      exact ⟨⟨q, by rw [placesIn]; exact List.mem_append_left _ hq, hqa⟩, hbelow⟩
    · obtain ⟨inside, hinside, hall⟩ := mem_placesIn' h
      refine ⟨inside, hinside, fun a ha => ?_⟩
      obtain ⟨⟨q, hq, hqa⟩, hbelow⟩ := hall a ha
      exact ⟨⟨q, by rw [placesIn]; exact List.mem_append_right _ hq, hqa⟩, hbelow⟩

end

mutual

/-- What stands below an element has it as an ancestor. -/
theorem exists_below {above : List Element} {e y : Element} {q : Place} (hq : q ∈ e.places above)
    (hy : y ∈ (placesIn [] q.element.children).map Place.element) :
    ∃ place ∈ e.places above, place.element = y ∧ q.element ∈ place.ancestors := by
  cases e with
  | node tag children endTag stop =>
    rw [places] at hq
    rcases List.mem_cons.mp hq with rfl | hq
    · rw [map_placesIn [] (.node tag children endTag stop :: above)] at hy
      obtain ⟨place, hplace, rfl⟩ := List.mem_map.mp hy
      obtain ⟨inside, hinside, -⟩ := mem_placesIn' hplace
      refine ⟨place, by rw [places]; exact List.mem_cons_of_mem _ hplace, rfl, ?_⟩
      rw [hinside]
      simp
    · obtain ⟨place, hplace, h1, h2⟩ := exists_below_in hq hy
      exact ⟨place, by rw [places]; exact List.mem_cons_of_mem _ hplace, h1, h2⟩

theorem exists_below_in {above es : List Element} {y : Element} {q : Place} (hq : q ∈ placesIn above es)
    (hy : y ∈ (placesIn [] q.element.children).map Place.element) :
    ∃ place ∈ placesIn above es, place.element = y ∧ q.element ∈ place.ancestors := by
  cases es with
  | nil => simp [placesIn] at hq
  | cons e es =>
    rw [placesIn] at hq ⊢
    rcases List.mem_append.mp hq with hq | hq
    · obtain ⟨place, hplace, h⟩ := exists_below hq hy
      exact ⟨place, List.mem_append_left _ hplace, h⟩
    · obtain ⟨place, hplace, h⟩ := exists_below_in hq hy
      exact ⟨place, List.mem_append_right _ hplace, h⟩

end

end Element

/-- The matches below the picked elements are those with a picked ancestor. -/
theorem Document.mem_descendants {d : Document} {pick select : Element → Bool} {y : Element} :
    y ∈ (d.find pick).flatMap (·.descendants select) ↔
      ∃ place ∈ d.places, place.element = y ∧ select y = true ∧ place.ancestors.any pick = true := by
  simp only [Document.find, Element.descendants, List.mem_flatMap, List.mem_filter, List.mem_map, List.any_eq_true]
  constructor
  · rintro ⟨e, ⟨⟨q, hq, rfl⟩, hpick⟩, hy, hselect⟩
    obtain ⟨place, hplace, h1, h2⟩ := Element.exists_below_in hq (List.mem_map.mpr hy)
    exact ⟨place, hplace, h1, hselect, q.element, h2, hpick⟩
  · rintro ⟨place, hplace, rfl, hselect, a, ha, hpick⟩
    obtain ⟨inside, hinside, hall⟩ := Element.mem_placesIn' hplace
    rw [hinside, List.append_nil] at ha
    obtain ⟨hq, hbelow⟩ := hall a ha
    exact ⟨a, ⟨hq, hpick⟩, List.mem_map.mp hbelow, hselect⟩

/-- A match without a match above it. -/
def Place.isOutermost (select : Element → Bool) (place : Place) : Bool :=
  select place.element && !place.ancestors.any select

namespace Element

mutual

theorem outermost_eq (select : Element → Bool) (above : List Element) (e : Element) :
    ((e.places above).filter (·.isOutermost select)).map Place.element =
      if above.any select then [] else e.outermost select := by
  cases e with
  | node tag children endTag stop =>
    have hbelow := outermostIn_eq select (.node tag children endTag stop :: above) children
    rw [places, List.filter_cons, outermost]
    cases ha : above.any select <;> cases hs : select (.node tag children endTag stop) <;>
      simp [Place.isOutermost, ha, hs] at hbelow ⊢ <;> exact hbelow

theorem outermostIn_eq (select : Element → Bool) (above : List Element) (es : List Element) :
    ((placesIn above es).filter (·.isOutermost select)).map Place.element =
      if above.any select then [] else outermostIn select es := by
  cases es with
  | nil => simp [placesIn, outermostIn]
  | cons e es =>
    have h1 := outermost_eq select above e
    have h2 := outermostIn_eq select above es
    rw [placesIn, List.filter_append, List.map_append, h1, h2, outermostIn]
    split <;> rfl

end

end Element

theorem Document.outermost_eq (d : Document) (select : Element → Bool) :
    d.outermost select = (d.places.filter (·.isOutermost select)).map Place.element := by
  have h := Element.outermostIn_eq select [] d.roots
  exact h.symm

namespace Source

variable {above : List Element} {p : Nat} {s : Source}

theorem placesIn_element (tag : Bytes) (selfClosing : Bool) (inner : Source) (close : Option Bytes) (next : Source) :
    Element.placesIn above ((element tag selfClosing inner close next).build p) =
      ⟨node p tag selfClosing inner close, above⟩ ::
        (Element.placesIn (node p tag selfClosing inner close :: above) (inner.build (p + tag.length)) ++
          Element.placesIn above (next.build (p + tag.length + inner.size + (close.getD []).length))) := by
  rw [build_element, Element.placesIn, node, Element.places]
  rfl

/-- The edits of a tree, grouped by the elements they belong to. -/
theorem changes_script_perm {plan : Place → Patch} {edits : Place → List Change}
    (h : s.Each (fun x => ((plan x.place).head x.pos x.tag x.selfClosing).changes ++
      ((plan x.place).tail x.closePos x.close).changes = edits x.place) above p) :
    ((Element.placesIn above (s.build p)).flatMap edits).Perm (s.script plan above p).changes := by
  induction s generalizing above p with
  | nil => exact List.Perm.refl _
  | gap g next ih => exact ih h
  | element tag selfClosing inner close next ih1 ih2 =>
    obtain ⟨hedits, h1, h2⟩ := h
    rw [placesIn_element, List.flatMap_cons, List.flatMap_append]
    simp only [script, Script.changes_append]
    have hself : edits ⟨node p tag selfClosing inner close, above⟩ = _ := hedits.symm
    rw [hself, List.append_assoc]
    refine List.Perm.append_left _ ?_
    refine (List.Perm.append_left _ ((ih1 h1).append (ih2 h2))).trans ?_
    exact List.perm_append_comm_assoc _ _ _

/-- Elements begin one after another. -/
theorem pairwise_places (h : s.Each (fun x => 0 < x.tag.length) above p) :
    (∀ place ∈ Element.placesIn above (s.build p), p ≤ place.element.startTag.start ∧
      place.element.startTag.start < p + s.size) ∧
    (Element.placesIn above (s.build p)).Pairwise fun a b => a.element.startTag.start < b.element.startTag.start := by
  induction s generalizing above p with
  | nil => simp [build, Element.placesIn]
  | gap g next ih =>
    obtain ⟨h1, h2⟩ := ih h
    refine ⟨fun place hplace => ?_, h2⟩
    have := h1 place hplace
    simp only [size]
    omega
  | element tag selfClosing inner close next ih1 ih2 =>
    obtain ⟨htag, h1, h2⟩ := h
    obtain ⟨g1, g2⟩ := ih1 h1
    obtain ⟨k1, k2⟩ := ih2 h2
    have htag : 0 < tag.length := htag
    have hstart : (node p tag selfClosing inner close).startTag.start = p := rfl
    rw [placesIn_element]
    simp only [size]
    refine ⟨fun place hplace => ?_, List.pairwise_cons.mpr ⟨fun place hplace => ?_, ?_⟩⟩
    · rcases List.mem_cons.mp hplace with rfl | hplace
      · rw [hstart]
        omega
      · rcases List.mem_append.mp hplace with hplace | hplace
        · have := g1 place hplace
          omega
        · have := k1 place hplace
          omega
    · rw [hstart]
      rcases List.mem_append.mp hplace with hplace | hplace
      · have := g1 place hplace
        omega
      · have := k1 place hplace
        omega
    · refine List.pairwise_append.mpr ⟨g2, k2, fun a ha b hb => ?_⟩
      have := g1 a ha
      have := k1 b hb
      omega

theorem WellFormed.pairwise_places (h : s.WellFormed) :
    (Element.placesIn [] (s.build 0)).Pairwise fun a b => a.element.startTag.start < b.element.startTag.start :=
  (Source.pairwise_places (h.each fun _ hx _ => Patch.tag_length_pos hx)).2

end Source

end Codemod.Markup
