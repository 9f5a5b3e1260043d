import Codemod.Proofs.Release12.Note

namespace Codemod.Release12

open Edit Markup

/-- One more element for the distinct ones. -/
def addDistinct (seen : List Element) (e : Element) : List Element :=
  if seen.any (·.startTag.start = e.startTag.start) then seen else seen ++ [e]

theorem distinct_eq (elements : List Element) : distinct elements = elements.foldl addDistinct [] := rfl

theorem addDistinct_nodup {seen : List Element} {e : Element}
    (h : seen.Pairwise fun a b => a.startTag.start ≠ b.startTag.start) :
    (addDistinct seen e).Pairwise fun a b => a.startTag.start ≠ b.startTag.start := by
  unfold addDistinct
  split
  · exact h
  · next hnew =>
    refine List.pairwise_append.mpr ⟨h, by simp, fun a ha b hb heq => hnew ?_⟩
    rw [List.mem_singleton.mp hb] at heq
    exact List.any_eq_true.mpr ⟨a, ha, by simpa using heq⟩

/-- What is distinct from what was seen is added, and nothing else. -/
theorem foldl_addDistinct (elements seen : List Element)
    (hseen : seen.Pairwise fun a b => a.startTag.start ≠ b.startTag.start) :
    (elements.foldl addDistinct seen).Pairwise (fun a b => a.startTag.start ≠ b.startTag.start) ∧
      (∀ e ∈ elements.foldl addDistinct seen, e ∈ seen ∨ e ∈ elements) ∧
      (∀ e, e ∈ seen ∨ e ∈ elements →
        ∃ e' ∈ elements.foldl addDistinct seen, e'.startTag.start = e.startTag.start) := by
  induction elements generalizing seen with
  | nil => exact ⟨hseen, fun e he => Or.inl he, fun e he => ⟨e, he.resolve_right (by simp), rfl⟩⟩
  | cons x rest ih =>
    obtain ⟨h1, h2, h3⟩ := ih (addDistinct seen x) (addDistinct_nodup hseen)
    have hsub : ∀ e ∈ addDistinct seen x, e ∈ seen ∨ e = x := by
      intro e he
      unfold addDistinct at he
      split at he
      · exact Or.inl he
      · simpa using he
    refine ⟨h1, fun e he => ?_, fun e he => ?_⟩
    · rcases h2 e he with h | h
      · rcases hsub e h with h | rfl
        · exact Or.inl h
        · exact Or.inr (List.mem_cons_self ..)
      · exact Or.inr (List.mem_cons_of_mem x h)
    · have hold : ∀ y ∈ seen, y ∈ addDistinct seen x := by
        intro y hy
        unfold addDistinct
        split
        · exact hy
        · exact List.mem_append_left _ hy
      rcases he with he | he
      · exact h3 e (Or.inl (hold e he))
      · rcases List.mem_cons.mp he with rfl | he
        · by_cases hin : seen.any (·.startTag.start = e.startTag.start) = true
          · obtain ⟨y, hy, hsame⟩ := List.any_eq_true.mp hin
            obtain ⟨e', he', hstart⟩ := h3 y (Or.inl (hold y hy))
            exact ⟨e', he', hstart.trans (by simpa using hsame)⟩
          · refine h3 e (Or.inl ?_)
            simp [addDistinct, hin]
        · exact h3 e (Or.inr he)

/-- The distinct elements of a list are those of any list without repetitions that has the same
elements. -/
theorem distinct_perm {elements others : List Element}
    (hothers : others.Pairwise fun a b => a.startTag.start ≠ b.startTag.start)
    (hmem : ∀ e, e ∈ elements ↔ e ∈ others) : (distinct elements).Perm others := by
  obtain ⟨h1, h2, h3⟩ := foldl_addDistinct elements [] List.Pairwise.nil
  have hsame : ∀ a ∈ others, ∀ b ∈ others, a.startTag.start = b.startTag.start → a = b := by
    intro a ha b hb hab
    by_contra hne
    have : Std.Symm fun a b : Element => a.startTag.start ≠ b.startTag.start := ⟨fun _ _ h => Ne.symm h⟩
    exact hothers.forall ha hb hne hab
  have hnodup : ∀ {l : List Element}, l.Pairwise (fun a b => a.startTag.start ≠ b.startTag.start) → l.Nodup :=
    fun h => h.imp fun hab heq => hab (by rw [heq])
  rw [distinct_eq]
  refine (List.perm_ext_iff_of_nodup (hnodup h1) (hnodup hothers)).mpr fun e => ⟨fun he => ?_, fun he => ?_⟩
  · exact (hmem e).mp ((h2 e he).resolve_left (by simp))
  · obtain ⟨e', he', hstart⟩ := h3 e (Or.inr ((hmem e).mpr he))
    have hin : e' ∈ others := (hmem e').mp ((h2 e' he').resolve_left (by simp))
    rwa [hsame e' hin e he hstart] at he'

/-- The distinct matches below picked elements, edited one by one. -/
theorem distinct_descendants_perm {d : Document} {s : Source} (hs : Reading d s) (pick select : Element → Bool) :
    (distinct ((d.find pick).flatMap (·.descendants select))).Perm
      ((d.places.filter fun place => select place.element && place.ancestors.any pick).map Place.element) := by
  refine distinct_perm ?_ fun e => ?_
  · have hpair := hs.wellFormed.pairwise_places
    rw [hs.roots] at hpair
    refine List.pairwise_map.mpr ((hpair.filter _).imp fun h => Nat.ne_of_lt h)
  · rw [Document.mem_descendants]
    simp only [List.mem_map, List.mem_filter, Bool.and_eq_true]
    constructor
    · rintro ⟨place, hplace, rfl, h⟩
      exact ⟨place, ⟨hplace, h⟩, rfl⟩
    · rintro ⟨place, ⟨hplace, h⟩, rfl⟩
      exact ⟨place, hplace, rfl, h⟩

/-- The template becomes a header. -/
def becomesHeader (f : Family) (place : Place) : Bool :=
  isTabTemplate place.element && place.ancestors.any f.isItem

/-- The headers made of templates as a plan. -/
def wrapPlan (f : Family) (place : Place) : Patch :=
  if becomesHeader f place then .rename f.headerTag else .keep

theorem template_ordinary : Ordinary "ng-template" := .of_dash (by decide)

theorem name_of_isTabTemplate {x : Spot} (h : isTabTemplate x.place.element = true) : x.name = bytes "ng-template" :=
  List.mem_singleton.mp (name_of_named (Bool.and_eq_true_iff.mp h).1)

variable {d : Document} {s : Source}

theorem changes_rename (f : Family) {x : Spot} (hx : x.In d.content) (hord : Ordinary x.name) :
    ((Patch.rename f.headerTag).head x.pos x.tag x.selfClosing).changes ++
      ((Patch.rename f.headerTag).tail x.closePos x.close).changes = wrapTemplate f d x.place.element := by
  have htag : Span.text ⟨x.pos, x.pos + x.tag.length⟩ d.content = x.tag := hx.slice_tag
  cases hc : x.close with
  | none =>
    have hself : x.selfClosing = true := (closed_of_ordinary hx hord).resolve_right (by simp [hc])
    obtain ⟨hinner, -⟩ := hx.leaf (by simp [Spot.leaf, Source.leaf, hself])
    have hend : x.place.element.endTag = none := by
      simp [Spot.place, Spot.element, Source.node, Element.endTag, hc]
    have hspan : x.place.element.span = ⟨x.pos, x.pos + x.tag.length⟩ := by
      simp [Spot.place, Spot.element, Source.node, Element.span, Element.startTag, Element.tag, Element.stop, hc,
        hinner, Source.size]
    have hcontent : d.text x.place.element.contentSpan = [] := by
      have : x.place.element.contentSpan = ⟨x.pos + x.tag.length, x.pos + x.tag.length⟩ := by
        have h := Source.contentSpan_node (p := x.pos) hx.leaf
        rw [hinner] at h
        simpa [Spot.place, Spot.element, Source.size, hinner] using h
      rw [this]
      simp [Document.text, Span.text, Bytes.slice]
    simp only [Patch.head, Patch.tail, wrapTemplate, hend, hspan, hcontent, Change.replaceSpan, htag, hself]
    simp [openTag, closeTag, Bytes.concat]
  | some c =>
    have hself : x.selfClosing = false := by
      rw [Bool.eq_false_iff]
      intro hself
      have := (hx.leaf (by simp [Spot.leaf, Source.leaf, hself])).2
      simp [hc] at this
    have hend : x.place.element.endTag = some ⟨x.closePos, x.closePos + c.length⟩ := by
      simp [Spot.place, Spot.element, Source.node, Element.endTag, hc, Spot.closePos]
    have hclose : Span.text ⟨x.closePos, x.closePos + c.length⟩ d.content = c := hx.slice_close hc
    have hstart : x.place.element.startTag = ⟨x.pos, x.pos + x.tag.length⟩ := rfl
    simp only [Patch.head, Patch.tail, wrapTemplate, hend, hstart, Change.replaceSpan, htag, hclose, hself]
    simp [openTag, closeTag, Bytes.concat]

theorem wrapTemplates_carries (hs : Reading d s) (f : Family) : Carries d s [] (wrapPlan f) (wrapTemplates f d) := by
  have hperm : (wrapTemplates f d).Perm (d.places.flatMap fun place =>
      if becomesHeader f place then wrapTemplate f d place.element else []) := by
    have hdistinct := (distinct_descendants_perm hs f.isItem isTabTemplate).flatMap_right (wrapTemplate f d)
    refine hdistinct.trans (List.Perm.of_eq ?_)
    induction d.places with
    | nil => rfl
    | cons place rest ih =>
      rw [List.flatMap_cons, ← ih, List.filter_cons]
      change List.flatMap _ (List.map _ (if becomesHeader f place then _ else _)) = _
      split <;> simp
  refine hs.carries (fun place =>
    if becomesHeader f place then wrapTemplate f d place.element else []) ?_ ?_ hperm ?_
  · intro x hx
    unfold wrapPlan
    split
    · next h =>
      have hname := name_of_isTabTemplate (Bool.and_eq_true_iff.mp h).1
      exact closed_of_ordinary hx (hname ▸ template_ordinary)
    · trivial
  · intro x hx
    unfold wrapPlan
    split
    · next h =>
      have hname := name_of_isTabTemplate (Bool.and_eq_true_iff.mp h).1
      exact changes_rename f hx (hname ▸ template_ordinary)
    · exact changes_keep x
  · refine pairwise_of_not_inserts fun c hc => ?_
    obtain ⟨e, -, hc⟩ := List.mem_flatMap.mp hc
    have hmode : c.mode = .replace := by
      unfold wrapTemplate at hc
      split at hc
      · rw [List.mem_singleton.mp hc]
        rfl
      · rcases List.mem_cons.mp hc with rfl | hc
        · rfl
        · rw [List.mem_singleton.mp hc]
          rfl
    simp [Change.inserts, hmode]

theorem header_ordinary {f : Family} (hf : f ∈ families) : Ordinary f.headerTag ∧ TagName f.headerTag := by
  obtain ⟨hdash, hletter, hplain⟩ := (names_of_family hf).2.2 f.headerTag (by simp)
  exact ⟨.of_dash hdash, hletter, fun b hb => (hplain b hb).1⟩

theorem wrapPlan_sound {f : Family} (hf : f ∈ families) (x : Spot) : (wrapPlan f x.place).Sound x := by
  unfold wrapPlan
  split
  · next h =>
    have hname := name_of_isTabTemplate (Bool.and_eq_true_iff.mp h).1
    exact ⟨hname ▸ template_ordinary, (header_ordinary hf).1, (header_ordinary hf).2⟩
  · trivial

end Codemod.Release12
