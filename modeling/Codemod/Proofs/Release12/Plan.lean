import Codemod.Proofs.Markup.Outline
import Codemod.Proofs.Markup.Places
import Codemod.Proofs.Markup.TagEdit
import Codemod.Release12.Stages

namespace Codemod.Release12

open Edit Markup

/-- A document with the tree it was read from. -/
structure Reading (d : Document) (s : Source) : Prop where
  wellFormed : s.WellFormed
  content : render s.pieces = d.content
  roots : s.build 0 = d.roots

theorem exists_reading {path content : Bytes} {d : Document} (h : Document.parse path content = .ok d) :
    ∃ s, Reading d s ∧ d.content = content := by
  obtain ⟨s, hs, hrender, rfl⟩ := Markup.exists_source h
  exact ⟨s, ⟨hs, hrender, rfl⟩, rfl⟩

theorem Reading.outline {d : Document} {s : Source} (hs : Reading d s) : d.outline = s.outline [] := by
  obtain ⟨path, content, roots⟩ := d
  obtain ⟨hwell, hcontent, rfl⟩ := hs
  exact Source.outline_of_wellFormed hwell hcontent

theorem name_place (x : Spot) : x.place.element.name = x.name := by
  simp [Spot.place, Spot.element, Source.node, Element.name, Element.tag, Spot.name]

theorem name_of_named {x : Spot} {names : List Bytes} (h : x.place.element.named names = true) : x.name ∈ names := by
  rw [← name_place]
  exact List.elem_iff.mp h

/-- What a plan makes of a document is what the changes make of it. -/
structure Carries (d : Document) (s : Source) (w : Bytes) (plan : Place → Patch) (cs : List Change) : Prop where
  each : s.Each (Source.Planned w d.content plan) [] 0
  apply : applyChanges d.content cs = .ok (render (s.patch plan [] 0).pieces)

/-- Changes are those of a plan if they are so element by element. -/
theorem Reading.carries {d : Document} {s : Source} (hs : Reading d s) {w : Bytes} {plan : Place → Patch}
    (edits : Place → List Change) {cs : List Change}
    (hfits : ∀ x : Spot, x.In d.content → (plan x.place).Fits w x)
    (hedits : ∀ x : Spot, x.In d.content → ((plan x.place).head x.pos x.tag x.selfClosing).changes ++
      ((plan x.place).tail x.closePos x.close).changes = edits x.place)
    (hperm : cs.Perm (d.places.flatMap edits))
    (hlast : cs.Pairwise fun a b => a.inserts w = true → b.inserts w = true) : Carries d s w plan cs := by
  obtain ⟨hwell, hcontent, hroots⟩ := hs
  have heach : s.Each (Source.Planned w d.content plan) [] 0 :=
    hwell.each fun x hx _ => ⟨hcontent ▸ hx, hfits x (hcontent ▸ hx)⟩
  refine ⟨heach, ?_⟩
  rw [← hcontent] at heach ⊢
  refine Source.applyChanges_patch heach (hperm.trans ?_) hlast
  rw [Document.places, ← hroots]
  exact Source.changes_script_perm (hwell.each fun x hx _ => hedits x (hcontent ▸ hx))

/-- Sound edits leave a document that can be read. -/
theorem Reading.wellFormed_patch {d : Document} {s : Source} (hs : Reading d s) {w : Bytes} {plan : Place → Patch}
    {cs : List Change} (h : Carries d s w plan cs)
    (hsound : ∀ x : Spot, x.In d.content → x.place ∈ d.places → (plan x.place).Sound x) :
    (s.patch plan [] 0).WellFormed := by
  refine hs.wellFormed.patch h.each (hs.wellFormed.each fun x hx hplace => ?_)
  exact hsound x (hs.content ▸ hx) (by rw [Document.places, ← hs.roots]; exact hplace)

/-- Where no change inserts the text, the order of the changes is free. -/
theorem pairwise_of_not_inserts {w : Bytes} {cs : List Change} (h : ∀ c ∈ cs, c.inserts w = false) :
    cs.Pairwise fun a b => a.inserts w = true → b.inserts w = true := by
  refine List.Pairwise.imp_of_mem (fun {a b} ha _ _ hw => ?_) (List.pairwise_of_forall (R := fun _ _ => True) (by simp))
  rw [h a ha] at hw
  cases hw

theorem changes_keep (x : Spot) :
    (Patch.keep.head x.pos x.tag x.selfClosing).changes ++ (Patch.keep.tail x.closePos x.close).changes = [] := by
  cases x.close <;> simp [Patch.head, Patch.tail]

/-- The elements found, edited one by one. -/
theorem flatMap_find (d : Document) (select : Element → Bool) (edits : Element → List Change) :
    (d.find select).flatMap edits =
      d.places.flatMap fun place => if select place.element then edits place.element else [] := by
  rw [Document.find]
  induction d.places with
  | nil => rfl
  | cons place rest ih => by_cases h : select place.element = true <;> simp [h, ih]

/-- The alignment that tabs get. -/
def newAlignment? (e : Element) : Option Bytes := do
  let type ← e.attribute? (attributeNames "type")
  guard (!e.hasAttribute (attributeNames "tabAlignment"))
  alignment? (Text.lower (unquote type.value))

def alignmentAttribute (alignment : Bytes) : Bytes := addedAttribute "tabAlignment" alignment

theorem alignTabs_eq (d : Document) : alignTabs d =
    (d.find (Element.named [bytes tabs.component])).flatMap fun e =>
      (newAlignment? e).toList.map fun a => .insert e.attributePos (alignmentAttribute a) := by
  have htext : ∀ a : Bytes, Bytes.concat [bytes " tabAlignment=\"", a, bytes "\""] = alignmentAttribute a := by
    intro a
    simp [Bytes.concat, alignmentAttribute, addedAttribute]
    rfl
  unfold alignTabs
  rw [List.filterMap_eq_flatMap_toList]
  congr 1
  funext e
  unfold newAlignment?
  simp only [htext]
  cases e.attribute? (attributeNames (bytes "type")) with
  | none => rfl
  | some type =>
    cases e.hasAttribute (attributeNames (bytes "tabAlignment")) with
    | true => rfl
    | false =>
      cases h : alignment? (Text.lower (unquote type.value)) with
      | none => simp [h]
      | some a => simp [h]

/-- The alignment of tabs as a plan. -/
def alignmentPlan (d : Document) (place : Place) : Patch :=
  if place.element.named [bytes tabs.component] then
    match newAlignment? place.element with
    | some a =>
      .retag (tagEdits d.content place.element [] (some (alignmentAttribute a)) place.element.startTag.stop)
    | none => .keep
  else .keep

theorem isLetter_newAlignment {e : Element} {a : Bytes} (h : newAlignment? e = some a) :
    ∀ b ∈ a, Bytes.isLetter b = true := by
  obtain ⟨type, -, h⟩ := Option.bind_eq_some_iff.mp h
  obtain ⟨-, -, h⟩ := Option.bind_eq_some_iff.mp h
  unfold alignment? at h
  split at h
  · cases h
    decide
  · split at h
    · cases h
      decide
    · cases h

variable {d : Document} {s : Source}

theorem alignTabs_carries (hs : Reading d s) : Carries d s [] (alignmentPlan d) (alignTabs d) := by
  refine hs.carries (fun place => if place.element.named [bytes tabs.component] then
    (newAlignment? place.element).toList.map fun a => .insert place.element.attributePos (alignmentAttribute a)
    else []) ?_ ?_ ?_ ?_
  · intro x hx
    unfold alignmentPlan
    split
    · split
      · exact retag_fits hx (List.nil_sublist _) (by rintro text ⟨⟩; simp [alignmentAttribute, addedAttribute_eq])
      · trivial
    · trivial
  · intro x hx
    unfold alignmentPlan
    split
    · next hnamed =>
      cases newAlignment? x.place.element with
      | none => simpa using changes_keep x
      | some a => cases x.close <;> simp [Patch.head, Patch.tail, changes_tagEdits]
    · exact changes_keep x
  · rw [alignTabs_eq, flatMap_find]
  · refine pairwise_of_not_inserts fun c hc => ?_
    rw [alignTabs_eq] at hc
    obtain ⟨e, -, hc⟩ := List.mem_flatMap.mp hc
    obtain ⟨a, -, rfl⟩ := List.mem_map.mp hc
    simp [Change.inserts, Change.insert, alignmentAttribute, addedAttribute_eq]

/-- Aligned tabs stay one start tag, whatever their attributes look like. -/
theorem alignmentPlan_sound {x : Spot} (hx : x.In d.content) : (alignmentPlan d x.place).Sound x := by
  unfold alignmentPlan
  split
  · split
    · next a ha =>
      exact isStartTag_added hx (bytes "tabAlignment") a (by decide) (by decide) (isLetter_newAlignment ha)
    · trivial
  · trivial

end Codemod.Release12
