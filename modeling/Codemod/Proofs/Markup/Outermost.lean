import Codemod.Proofs.Markup.Places
import Codemod.Proofs.Markup.Spans

namespace Codemod.Markup

/-- An element of a document under its ancestors, nearest first: a root has none, and a child has its parent and
the ancestors of that. -/
inductive Document.Holds (d : Document) : Element → List Element → Prop
  | root {e : Element} (h : e ∈ d.roots) : d.Holds e []
  | child {e parent : Element} {above : List Element} (h : d.Holds parent above) (he : e ∈ parent.children) :
      d.Holds e (parent :: above)

namespace Element

section Walk

variable {ε : Type}

mutual

/-- A visitor that always goes on sees every element. -/
theorem walk_descend (above : List Element) (e : Element) :
    e.walk (fun _ => (.descend : Visit ε)) = ((e.places above).map Place.element, none) := by
  cases e with
  | node tag children endTag stop =>
    have hbelow := walkIn_descend (.node tag children endTag stop :: above) children
    rw [walk, places, hbelow]
    rfl

theorem walkIn_descend (above : List Element) (es : List Element) :
    walkIn (fun _ => (.descend : Visit ε)) es = ((placesIn above es).map Place.element, none) := by
  cases es with
  | nil => rfl
  | cons e es =>
    rw [walkIn, walk_descend above e, walkIn_descend above es, placesIn, List.map_append]

end

mutual

/-- A visitor that passes over what is below a match sees of the matches the outermost ones. -/
theorem walk_skip (select : Element → Bool) (e : Element) : ∃ seen,
    e.walk (fun e => if select e then (.skip : Visit ε) else .descend) = (seen, none) ∧
      seen.filter select = e.outermost select := by
  cases e with
  | node tag children endTag stop =>
    obtain ⟨below, hwalk, hbelow⟩ := walkIn_skip select children
    rw [walk, outermost, hwalk]
    by_cases hselect : select (.node tag children endTag stop) = true
    · exact ⟨[.node tag children endTag stop], by simp [hselect], by simp [hselect]⟩
    · exact ⟨.node tag children endTag stop :: below, by simp [hselect], by simp [hselect, hbelow]⟩

theorem walkIn_skip (select : Element → Bool) (es : List Element) : ∃ seen,
    walkIn (fun e => if select e then (.skip : Visit ε) else .descend) es = (seen, none) ∧
      seen.filter select = outermostIn select es := by
  cases es with
  | nil => exact ⟨[], rfl, rfl⟩
  | cons e es =>
    obtain ⟨first, hfirst, hfirst'⟩ := walk_skip select e
    obtain ⟨rest, hrest, hrest'⟩ := walkIn_skip select es
    rw [walkIn, hfirst, hrest, outermostIn]
    exact ⟨first ++ rest, rfl, by rw [List.filter_append, hfirst', hrest']⟩

end

end Walk

end Element

section Parsed

variable {path content : Bytes} {d : Document} (hd : Document.parse path content = .ok d)

include hd

/-- The places of a template are its elements under their ancestors. -/
theorem mem_places_iff_holds (place : Place) : place ∈ d.places ↔ d.Holds place.element place.ancestors := by
  obtain ⟨s, -, -, rfl⟩ := exists_source hd
  obtain ⟨e, above⟩ := place
  constructor
  · intro hplace
    induction above generalizing e with
    | nil =>
      obtain ⟨-, hroot⟩ | ⟨_, _, hcons, -⟩ := Source.places_parent _ hplace
      · exact .root hroot
      · cases hcons
    | cons parent above ih =>
      obtain ⟨hnil, -⟩ | ⟨_, _, hcons, hchild, hparent⟩ := Source.places_parent _ hplace
      · cases hnil
      · cases hcons
        exact .child (ih parent hparent) hchild
  · intro hholds
    change Document.Holds _ e above at hholds
    induction hholds with
    | root h => exact Source.mem_placesIn [] h
    | child _ he ih => exact Source.places_children _ ih _ he

theorem pairwise_places_of_parse :
    d.places.Pairwise fun a b => a.element.startTag.start < b.element.startTag.start := by
  obtain ⟨s, hs, -, rfl⟩ := exists_source hd
  exact hs.pairwise_places

/-- No two places hold the same element. -/
theorem eq_of_element {p q : Place} (hp : p ∈ d.places) (hq : q ∈ d.places) (h : p.element = q.element) : p = q := by
  have hstarts : (d.places.map fun place => place.element.startTag.start).Nodup :=
    (List.pairwise_map.mpr (pairwise_places_of_parse hd)).imp fun hlt => Nat.ne_of_lt hlt
  exact List.inj_on_of_nodup_map hstarts hp hq (congrArg (fun e => e.startTag.start) h)

theorem Document.Holds.above_unique {e : Element} {above above' : List Element} (h : d.Holds e above)
    (h' : d.Holds e above') : above = above' := by
  have heq := eq_of_element hd ((mem_places_iff_holds hd ⟨e, above⟩).mpr h) ((mem_places_iff_holds hd ⟨e, above'⟩).mpr h') rfl
  exact congrArg Place.ancestors heq

variable {select : Element → Bool} {e : Element} {above : List Element}

theorem Document.Holds.mem_outermost (h : d.Holds e above) :
    e ∈ d.outermost select ↔ select e = true ∧ above.any select = false := by
  rw [d.outermost_eq, List.mem_map]
  simp only [List.mem_filter, Place.isOutermost, Bool.and_eq_true, Bool.not_eq_true']
  constructor
  · rintro ⟨place, ⟨hplace, hmatch⟩, rfl⟩
    rwa [h.above_unique hd ((mem_places_iff_holds hd place).mp hplace)]
  · intro hmatch
    exact ⟨⟨e, above⟩, ⟨(mem_places_iff_holds hd _).mpr h, hmatch⟩, rfl⟩

/-- Among a match and its ancestors there is exactly one outermost match. -/
theorem Document.Holds.existsUnique_outermost (h : d.Holds e above) (hmatch : (e :: above).any select = true) :
    ∃! o, o ∈ d.outermost select ∧ o ∈ e :: above := by
  induction h with
  | @root e hroot =>
    have hself : e ∈ d.outermost select ↔ _ := (Document.Holds.root hroot).mem_outermost hd
    rw [List.any_cons, List.any_nil, Bool.or_false] at hmatch
    exact ⟨e, ⟨hself.mpr ⟨hmatch, rfl⟩, List.mem_cons_self ..⟩, fun o ho => List.mem_singleton.mp ho.2⟩
  | @child e parent above hparent he ih =>
    have hself : e ∈ d.outermost select ↔ _ := (hparent.child he).mem_outermost hd
    cases hany : (parent :: above).any select with
    | true =>
      obtain ⟨o, ⟨ho, hmem⟩, hunique⟩ := ih hany
      refine ⟨o, ⟨ho, List.mem_cons_of_mem _ hmem⟩, fun o' ⟨ho', hmem'⟩ => ?_⟩
      obtain rfl | hmem' := List.mem_cons.mp hmem'
      · rw [(hself.mp ho').2] at hany
        cases hany
      · exact hunique o' ⟨ho', hmem'⟩
    | false =>
      rw [List.any_cons, hany, Bool.or_false] at hmatch
      refine ⟨e, ⟨hself.mpr ⟨hmatch, hany⟩, List.mem_cons_self ..⟩, fun o ⟨ho, hmem⟩ => ?_⟩
      obtain rfl | hmem := List.mem_cons.mp hmem
      · rfl
      -- an outermost match is a match, and none is above the element
      · obtain ⟨place, hplace, rfl⟩ := List.mem_map.mp (d.outermost_eq select ▸ ho)
        have hplace := (List.mem_filter.mp hplace).2
        simp only [Place.isOutermost, Bool.and_eq_true] at hplace
        exact absurd hplace.1 (by simpa using List.any_eq_false.mp hany _ hmem)

/-- What can be told of an element by its place can be told of the element. -/
theorem exists_select (choice : Place → Bool) :
    ∃ select : Element → Bool, ∀ place ∈ d.places, select place.element = choice place := by
  classical
  refine ⟨fun e => decide (∃ place ∈ d.places, place.element = e ∧ choice place = true), fun place hplace => ?_⟩
  rw [Bool.eq_iff_iff, decide_eq_true_eq]
  constructor
  · rintro ⟨other, hother, heq, hchoice⟩
    rwa [← eq_of_element hd hother hplace heq]
  · exact fun hchoice => ⟨place, hplace, rfl, hchoice⟩

end Parsed

theorem Document.outermost_eq_filter (d : Document) (select : Element → Bool) : d.outermost select =
    ((d.places.filter fun p => select p.element).filter fun p => (p.ancestor? select).isNone).map Place.element := by
  rw [d.outermost_eq, List.filter_filter]
  congr 2
  funext p
  have hnone : (p.ancestor? select).isNone = !p.ancestors.any select := by
    rw [Place.ancestor?, Bool.eq_iff_iff, Option.isNone_iff_eq_none, List.find?_eq_none]
    simp
  rw [Place.isOutermost, hnone, Bool.and_comm]

/-- The matches of a template stand in the order of their start tags, each once. The outermost ones are, in that
order, those without a match above them, and every match is one of these or is below exactly one. Both are what a
visitor collects who goes on everywhere or passes over what is below a match. -/
theorem outermost_of_parse {path content : Bytes} {d : Document} (hd : Document.parse path content = .ok d) :
    (∀ place, place ∈ d.places ↔ d.Holds place.element place.ancestors) ∧
    (∀ choice : Place → Bool, ∃ select : Element → Bool, ∀ place ∈ d.places, select place.element = choice place) ∧
    ∀ select : Element → Bool,
      (∀ e, e ∈ d.find select ↔ (∃ above, d.Holds e above) ∧ select e = true) ∧
      ((d.find select).Pairwise fun a b => a.startTag.start < b.startTag.start) ∧
      d.outermost select =
        ((d.places.filter fun p => select p.element).filter fun p => (p.ancestor? select).isNone).map Place.element ∧
      (∀ e above, d.Holds e above → select e = true → ∃! o, o ∈ d.outermost select ∧ (o = e ∨ o ∈ above)) ∧
      (∃ seen, Element.walkIn (fun _ => (.descend : Visit Unit)) d.roots = (seen, none) ∧
        d.find select = seen.filter select) ∧
      ∃ seen, Element.walkIn (fun e => if select e then (.skip : Visit Unit) else .descend) d.roots = (seen, none) ∧
        d.outermost select = seen.filter select := by
  have hholds := mem_places_iff_holds hd
  refine ⟨hholds, exists_select hd, fun select => ⟨fun e => ?_, ?_, d.outermost_eq_filter select,
    fun e above h hselect => ?_, ⟨_, Element.walkIn_descend [] d.roots, rfl⟩, ?_⟩⟩
  · rw [Document.find, List.mem_filter, List.mem_map]
    constructor
    · rintro ⟨⟨place, hplace, rfl⟩, hselect⟩
      exact ⟨⟨_, (hholds place).mp hplace⟩, hselect⟩
    · rintro ⟨⟨above, h⟩, hselect⟩
      exact ⟨⟨⟨e, above⟩, (hholds _).mpr h, rfl⟩, hselect⟩
  · have hstarts : (d.places.map Place.element).Pairwise fun a b => a.startTag.start < b.startTag.start :=
      List.pairwise_map.mpr (pairwise_places_of_parse hd)
    exact hstarts.filter _
  · have hmatch : (e :: above).any select = true := by rw [List.any_cons, hselect, Bool.true_or]
    simpa only [List.mem_cons] using h.existsUnique_outermost hd hmatch
  · obtain ⟨seen, hwalk, hseen⟩ := Element.walkIn_skip select d.roots
    exact ⟨seen, hwalk, hseen.symm⟩

/-- A match inside another one and one beside it. -/
theorem outermost_of_parse_nested : ∃ d, Document.parse "a.html" "<a><b><a/></b></a><a/>" = .ok d ∧
    (d.find (·.named ["a"])).map (·.startTag.start) = [0, 6, 18] ∧
    (d.outermost (·.named ["a"])).map (·.startTag.start) = [0, 18] ∧
    ∀ e above, d.Holds e above → e.named ["a"] = true → ∃! o, o ∈ d.outermost (·.named ["a"]) ∧ (o = e ∨ o ∈ above) := by
  have hstarts : (Document.parse "a.html" "<a><b><a/></b></a><a/>").toOption.map (fun d =>
      ((d.find (·.named ["a"])).map (·.startTag.start), (d.outermost (·.named ["a"])).map (·.startTag.start))) =
      some ([0, 6, 18], [0, 18]) := by decide +kernel
  cases hd : Document.parse "a.html" "<a><b><a/></b></a><a/>" with
  | error e => rw [hd] at hstarts; cases hstarts
  | ok d =>
    rw [hd] at hstarts
    obtain ⟨hfind, houtermost⟩ := Prod.mk.inj (Option.some.inj hstarts)
    exact ⟨d, rfl, hfind, houtermost, ((outermost_of_parse hd).2.2 _).2.2.2.1⟩

end Codemod.Markup
