import Codemod.Proofs.Release12.Done

namespace Codemod.Release12

open Edit Markup

namespace TemplateRule

/-- The names of the elements that a rule adds. -/
def adds : TemplateRule → List Bytes
  | alignment | review _ => []
  | wrap f => [f.headerTag]
  | headers f => [f.headerTag, "igx-icon", "span"]
  | panels f => [f.panelTag]
  | inputs _ => ["label"]

/-- The names of the elements whose start tags a rule edits. -/
def opens : TemplateRule → List Bytes
  | alignment => [tabs.component]
  | headers f => f.tags.map bytes
  | inputs editor => [editor.component]
  | wrap _ | panels _ | review _ => []

/-- The names of the elements whose content a rule encloses, and the name of the header. -/
def splits : TemplateRule → List (Bytes × Bytes)
  | panels f => f.tags.map fun tag => (bytes tag, bytes f.headerTag)
  | alignment | wrap _ | headers _ | review _ | inputs _ => []

/-- A rule gives elements another name. -/
def renames : TemplateRule → Bool
  | wrap _ => true
  | alignment | headers _ | panels _ | review _ | inputs _ => false

/-- An edited picker is still a label, if it was one. -/
def KeepsLabel (tag tag' : Bytes) : TemplateRule → Prop
  | inputs _ => isLabelTag tag = true → isLabelTag tag' = true
  | alignment | wrap _ | headers _ | panels _ | review _ => True

/-- What the edits of a rule do to a tree. An edited start tag with its new children mentions the
panels that it mentioned. -/
def growth (r : TemplateRule) : Growth where
  edits tag tag' first := startTagName tag ∈ r.opens ∧ r.KeepsLabel tag tag' ∧
    ∀ f ∈ families, bytes f.panelTag <:+: tag → bytes f.panelTag <:+: tag' ++ render first.pieces
  fresh name := name ∈ r.adds
  gone tag := r.renames = true ∧ isTabTemplate (Element.ofTag tag) = true
  split name header := (name, header) ∈ r.splits

/-- A rule adds and edits no element of the names. -/
def avoids (r : TemplateRule) (names : List Bytes) : Bool :=
  names.all fun n => !r.adds.contains n && !r.opens.contains n && !r.splits.any (·.1 = n)

/-- What one rule has done, a later one does not undo. -/
def spares : TemplateRule → TemplateRule → Bool
  | alignment, later => later.avoids [tabs.component]
  | wrap f, later => later.avoids ["ng-template"] && (f.tags.map bytes).all (!later.adds.contains ·)
  | headers f, later => later.avoids [f.headerTag] &&
      (f.tags.map bytes).all fun n => !later.adds.contains n && !later.opens.contains n &&
        later.splits.all fun split => split.1 ≠ n || split.2 = bytes f.headerTag
  | panels f, later => later.avoids (f.tags.map bytes) && !later.adds.contains (bytes f.headerTag)
  | review _, _ => true
  | inputs editor, inputs other => bytes editor.component ≠ bytes other.component
  | inputs _, _ => false

/-- No rule undoes what those before it have done. -/
theorem templateRules_spare : templateRules.Pairwise fun r later => r.spares later = true := by
  decide +kernel

theorem avoids_iff {r : TemplateRule} {names : List Bytes} : r.avoids names = true ↔
    ∀ n ∈ names, n ∉ r.adds ∧ n ∉ r.opens ∧ ∀ header, (n, header) ∉ r.splits := by
  simp only [avoids, List.all_eq_true, Bool.and_eq_true, Bool.not_eq_true', ← Bool.not_eq_true,
    List.contains_iff_mem, and_assoc]
  refine forall₂_congr fun n _ => and_congr_right fun _ => and_congr_right fun _ => ?_
  constructor
  · intro h header hmem
    exact h (List.any_eq_true.mpr ⟨_, hmem, by simp⟩)
  · intro h hany
    obtain ⟨⟨n', header⟩, hmem, hn⟩ := List.any_eq_true.mp hany
    obtain rfl : n' = n := of_decide_eq_true hn
    exact h header hmem

variable {later : TemplateRule} {s s' : Source}

theorem done_alignment (hspares : alignment.spares later = true) (h : Source.Evolves later.growth s s')
    (hs : alignment.Done s) : alignment.Done s' := by
  obtain ⟨hadds, hopens, hsplits⟩ := avoids_iff.mp hspares _ (List.mem_singleton_self _)
  refine h.every_of_names (· = bytes tabs.component) ?_ ?_ ?_ ?_ ?_ hs
  · intro tag inner close hname hname'
    exact absurd hname' hname
  · rintro n hn rfl
    exact hadds hn
  · intro tag tag' first hedit hname
    exact hopens (hname ▸ hedit.1)
  · rintro n header hn rfl
    exact hsplits header hn
  · intro tag close inner inner' _ hdone
    exact hdone

theorem name_of_gone {tag : Bytes} (h : isTabTemplate (Element.ofTag tag) = true) :
    startTagName tag = bytes "ng-template" := by
  have hname := List.mem_singleton.mp (List.elem_iff.mp (Bool.and_eq_true_iff.mp h).1)
  rwa [Element.ofTag, Source.name_node] at hname

theorem isTabTemplate_eq_false {tag : Bytes} (h : startTagName tag ≠ bytes "ng-template") :
    isTabTemplate (Element.ofTag tag) = false := by
  rw [Bool.eq_false_iff]
  exact fun htab => h (name_of_gone htab)

theorem done_wrap {f : Family} (hspares : (wrap f).spares later = true) (h : Source.Evolves later.growth s s')
    (hs : (wrap f).Done s) : (wrap f).Done s' := by
  obtain ⟨hplain, hitems⟩ := Bool.and_eq_true_iff.mp hspares
  obtain ⟨hadds, hopens, hsplits⟩ := avoids_iff.mp hplain _ (List.mem_singleton_self _)
  have hfresh : ∀ n ∈ later.adds, n ∉ f.tags.map bytes := by
    intro n hn htag
    have := List.all_eq_true.mp hitems n htag
    simp [hn] at this
  have hnew {first : Source} (hfirst : first.Every fun t _ _ => later.growth.fresh (startTagName t)) :
      first.Every fun t _ _ => isTabTemplate (Element.ofTag t) = false :=
    hfirst.imp fun tag _ _ htag => isTabTemplate_eq_false fun hname => hadds (hname ▸ htag)
  have hinside {a b : Source} (hev : Source.Evolves later.growth a b)
      (ha : a.Every fun t _ _ => isTabTemplate (Element.ofTag t) = false) :
      b.Every fun t _ _ => isTabTemplate (Element.ofTag t) = false := by
    refine hev.every_of_names (· = bytes "ng-template") ?_ ?_ ?_ ?_ ?_ ha
    · intro tag inner close hname
      exact isTabTemplate_eq_false hname
    · rintro n hn rfl
      exact hadds hn
    · intro tag tag' first hedit hname
      exact hopens (hname ▸ hedit.1)
    · rintro n header hn rfl
      exact hsplits header hn
    · intro tag close inner inner' _ htag
      exact htag
  refine h.every ?_ ?_ ?_ ?_ hs
  · intro tag inner close htag hitem
    exact absurd hitem (hfresh _ htag)
  · intro tag close inner inner' hev hdone hitem
    exact hinside hev (hdone hitem)
  · intro tag tag' first close close' inner inner' _ hname hfirst hev hdone hitem
    have hitem' : f.Has tag := by rwa [Family.Has, ← hname]
    exact (Source.every_append _ _).mpr ⟨hnew hfirst, hinside hev (hdone hitem')⟩
  · intro tag header name panel close inner inner' _ hpanel hev hdone hitem
    exact (hinside hev (hdone hitem)).enclose fun _ _ =>
      isTabTemplate_eq_false fun hname => hadds (hname ▸ hpanel)

/-- What the rules of a family add is told apart by its name. -/
theorem tags_apart {f : Family} (hf : f ∈ families) :
    bytes f.headerTag ≠ bytes "ng-template" ∧ bytes f.headerTag ≠ bytes f.panelTag ∧
    bytes f.headerTag ∉ f.tags.map bytes ∧ bytes f.panelTag ∉ f.tags.map bytes ∧
    (∀ n ∈ (headers f).adds, n ∉ f.tags.map bytes) ∧ bytes "ng-template" ∉ f.tags.map bytes := by
  have hall : ∀ f ∈ families, bytes f.headerTag ≠ bytes "ng-template" ∧ bytes f.headerTag ≠ bytes f.panelTag ∧
      bytes f.headerTag ∉ f.tags.map bytes ∧ bytes f.panelTag ∉ f.tags.map bytes ∧
      (∀ n ∈ (headers f).adds, n ∉ f.tags.map bytes) ∧ bytes "ng-template" ∉ f.tags.map bytes := by decide +kernel
  exact hall f hf

/-- Headers stay where they are. -/
theorem anyChild_header {f : Family} (hf : f ∈ families) (hopens : bytes f.headerTag ∉ later.opens)
    (h : Source.Evolves later.growth s s') (hs : s.anyChild (isHeaderTag f) = true) :
    s'.anyChild (isHeaderTag f) = true := by
  refine h.anyChild (fun tag tag' first hedit htag => ?_) (fun tag hgone => ?_) hs
  · have hname : startTagName tag = bytes f.headerTag := of_decide_eq_true htag
    exact absurd (hname ▸ hedit.1) hopens
  · rw [isHeaderTag, name_of_gone hgone.2]
    exact decide_eq_false (tags_apart hf).1.symm

theorem done_headers {f : Family} (hf : f ∈ families) (hspares : (headers f).spares later = true)
    (h : Source.Evolves later.growth s s') (hs : (headers f).Done s) : (headers f).Done s' := by
  obtain ⟨hheader, hitems⟩ := Bool.and_eq_true_iff.mp hspares
  obtain ⟨-, hopens, -⟩ := avoids_iff.mp hheader _ (List.mem_singleton_self _)
  have hitem : ∀ n ∈ f.tags.map bytes, n ∉ later.adds ∧ n ∉ later.opens ∧
      ∀ header, (n, header) ∈ later.splits → header = bytes f.headerTag := by
    intro n hn
    have hall := List.all_eq_true.mp hitems n hn
    simp only [Bool.and_eq_true, Bool.not_eq_true', ← Bool.not_eq_true, List.contains_iff_mem, List.all_eq_true,
      Bool.or_eq_true, decide_eq_true_eq] at hall
    refine ⟨hall.1.1, hall.1.2, fun header hsplit => ?_⟩
    exact (hall.2 _ hsplit).resolve_left fun hne => hne rfl
  refine h.every ?_ ?_ ?_ ?_ hs
  · intro tag inner close htag hhas
    exact absurd htag (hitem _ hhas).1
  · intro tag close inner inner' hev hdone hhas
    exact (hdone hhas).imp_left (anyChild_header hf hopens hev)
  · intro tag tag' first close close' inner inner' hedit hname _ _ _ hhas
    exact absurd (hname ▸ hedit.1) (hitem _ hhas).2.1
  · intro tag header name panel close inner inner' hsplit _ hev hdone hhas
    refine (hdone hhas).imp_left fun hold => ?_
    rw [(hitem _ hhas).2.2 header hsplit]
    exact Source.anyChild_enclose.trans (anyChild_header hf hopens hev hold)

theorem panelTag_word {f : Family} (hf : f ∈ families) : Word f.panelTag := by
  obtain ⟨hdash, -, hplain⟩ := (names_of_family hf).2.2 f.panelTag (by simp)
  exact ⟨List.ne_nil_of_mem hdash, fun b hb => (hplain b hb).2⟩

/-- Tags and end tags stand in brackets. -/
def AllBracketed (s : Source) : Prop := s.Every fun tag _ close => Bracketed tag ∧ ∀ c ∈ close, Bracketed c

theorem needsNoPanel_evolves {f : Family} (hf : f ∈ families) {body body' : Source}
    (hev : Source.Evolves later.growth body body') (hbrackets : AllBracketed body)
    (htabs : body.Every fun t _ _ => isTabTemplate (Element.ofTag t) = false)
    (h : NeedsNoPanel f (render body.pieces)) : NeedsNoPanel f (render body'.pieces) := by
  rcases h with hmention | hblank
  · have hword := panelTag_word hf
    have hall : body.Every fun tag _ close =>
        Bracketed tag ∧ (∀ c ∈ close, Bracketed c) ∧ ¬later.growth.gone tag := by
      refine (hbrackets.and htabs).imp fun tag inner close hboth => ⟨hboth.1.1, hboth.1.2, fun hgone => ?_⟩
      have htab := hgone.2
      rw [hboth.2] at htab
      cases htab
    have hedits : ∀ tag tag' first, later.growth.edits tag tag' first →
        bytes f.panelTag <:+: tag → bytes f.panelTag <:+: tag' ++ render first.pieces :=
      fun tag tag' first hedit => hedit.2.2 f hf
    have hin : bytes f.panelTag <:+: [] ++ (render body.pieces ++ []) := by simpa using hmention
    have hkept := hev.mention hword hedits hall hin
    exact Or.inl (by simpa using hkept)
  · have hsame := hev.eq_of_not_mem (hbrackets.imp fun _ _ _ h => h.1) (not_mem_of_isBlank hblank)
    rw [hsame]
    exact Or.inr hblank

theorem done_panels {f : Family} (hf : f ∈ families) (hspares : (panels f).spares later = true)
    (h : Source.Evolves later.growth s s') (hbrackets : AllBracketed s) (hwrapped : (wrap f).Done s)
    (hs : (panels f).Done s) : (panels f).Done s' := by
  obtain ⟨hitems, hheader⟩ := Bool.and_eq_true_iff.mp hspares
  have hitem := avoids_iff.mp hitems
  have hfresh : ¬later.growth.fresh f.headerTag := by
    intro hmem
    have hmem : bytes f.headerTag ∈ later.adds := hmem
    simp [hmem] at hheader
  have hgone : ∀ tag, later.growth.gone tag → startTagName tag ≠ bytes f.headerTag := by
    intro tag hgone
    rw [name_of_gone hgone.2]
    exact (tags_apart hf).1.symm
  refine h.every_of_names (· ∈ f.tags.map bytes) ?_ ?_ ?_ ?_ ?_ (hs.and (hwrapped.and hbrackets.inside))
  · intro tag inner close hname hhas
    exact absurd hhas hname
  · intro n hn htag
    exact (hitem n htag).1 hn
  · intro tag tag' first hedit htag
    exact (hitem _ htag).2.1 hedit.1
  · intro n header hn htag
    exact (hitem n htag).2.2 header hn
  · rintro tag close inner inner' hev ⟨hdone, htabs, hinside⟩ hhas hclose body' hbody'
    rcases hev.after? hfresh hgone with ⟨-, hnone⟩ | ⟨body, body'', hbody, hsome, hbodies⟩
    · rw [hnone] at hbody'
      cases hbody'
    · obtain rfl : body'' = body' := Option.some.inj (hsome.symm.trans hbody')
      exact needsNoPanel_evolves hf hbodies (Source.Every.after? hinside hbody)
        (Source.Every.after? (htabs hhas) hbody) (hdone hhas hclose body hbody)

theorem component_ne_label {editor : Editor} (heditor : editor ∈ editors) : bytes editor.component ≠ bytes "label" := by
  have hall : ∀ editor ∈ editors, bytes editor.component ≠ bytes "label" := by decide
  exact hall editor heditor

theorem done_inputs {editor : Editor} (heditor : editor ∈ editors) (hspares : (inputs editor).spares later = true)
    (h : Source.Evolves later.growth s s') (hwarned : Warned editor false [] s') (hs : (inputs editor).Done s) :
    (inputs editor).Done s' := by
  refine ⟨?_, hwarned⟩
  cases later with
  | inputs other =>
    have hother : bytes editor.component ≠ bytes other.component := of_decide_eq_true hspares
    refine h.every_of_names (· = bytes editor.component) ?_ ?_ ?_ ?_ ?_ hs.1
    · intro tag inner close hname hname'
      exact absurd hname' hname
    · rintro n hn rfl
      exact component_ne_label heditor (List.mem_singleton.mp hn)
    · intro tag tag' first hedit hname
      exact hother (hname ▸ List.mem_singleton.mp hedit.1)
    · intro n header hsplit
      exact absurd hsplit List.not_mem_nil
    · intro tag close inner inner' hev hdone hname
      obtain ⟨hany, hdrop⟩ := hdone hname
      exact ⟨hev.anyChild (fun tag tag' first hedit => hedit.2.1) (fun tag hgone => absurd hgone.1 (by simp [renames])) hany, hdrop⟩
  | _ => cases hspares

/-- What a rule has done stays done while later rules edit the tree. -/
theorem Done.lasts {r : TemplateRule} (hr : r ∈ templateRules) (hspares : r.spares later = true)
    (h : Source.Evolves later.growth s s') (hbrackets : AllBracketed s)
    (hwrapped : ∀ f, r = panels f → (wrap f).Done s)
    (hwarned : ∀ editor, r = inputs editor → Warned editor false [] s → Warned editor false [] s') (hs : r.Done s) :
    r.Done s' := by
  cases r with
  | alignment => exact done_alignment hspares h hs
  | wrap f => exact done_wrap hspares h hs
  | headers f => exact done_headers (mem_templateRules.mp hr) hspares h hs
  | panels f => exact done_panels (mem_templateRules.mp hr) hspares h hbrackets (hwrapped f rfl) hs
  | review f => trivial
  | inputs editor => exact done_inputs (mem_templateRules.mp hr) hspares h (hwarned editor rfl hs.2) hs

end TemplateRule

end Codemod.Release12
