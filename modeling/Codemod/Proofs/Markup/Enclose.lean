import Codemod.Proofs.Markup.Patched
import Codemod.Proofs.Markup.Places
import Codemod.Proofs.Markup.TagEdit

namespace Codemod.Markup

open Edit

/-- Elements whose content behind the first child named `header` is enclosed in an element of a
name; `tag?` gives its start tag. -/
structure Enclosure where
  header : Bytes
  name : Bytes
  tag? : Place → Option Bytes

/-- Insertions one behind the other, from `lo` to in front of `hi`. -/
structure Insertions (lo hi : Nat) (cs : List Change) : Prop where
  within : ∀ c ∈ cs, (lo : Int) ≤ c.position ∧ c.position < hi ∧ c.mode = .insert
  ascending : cs.Pairwise fun a b => a.position < b.position

namespace Insertions

variable {lo mid hi : Nat} {xs ys : List Change}

theorem nil : Insertions lo hi [] := ⟨by simp, .nil⟩

theorem single (text : Bytes) (h : lo < hi) : Insertions lo hi [.insert lo text] := by
  refine ⟨fun c hc => ?_, List.pairwise_singleton ..⟩
  rw [List.mem_singleton.mp hc]
  exact ⟨le_rfl, by simpa [Change.insert] using h, rfl⟩

theorem mono (h : Insertions lo hi xs) {lo' hi' : Nat} (hlo : lo' ≤ lo) (hhi : hi ≤ hi') : Insertions lo' hi' xs := by
  refine ⟨fun c hc => ?_, h.ascending⟩
  obtain ⟨h1, h2, h3⟩ := h.within c hc
  exact ⟨by omega, by omega, h3⟩

theorem append (hxs : Insertions lo mid xs) (hys : Insertions mid hi ys) (hlo : lo ≤ mid) (hhi : mid ≤ hi) :
    Insertions lo hi (xs ++ ys) := by
  refine ⟨fun c hc => ?_, List.pairwise_append.mpr ⟨hxs.ascending, hys.ascending, fun a ha b hb => ?_⟩⟩
  · rcases List.mem_append.mp hc with hc | hc
    · exact (hxs.mono le_rfl hhi).within c hc
    · exact (hys.mono hlo le_rfl).within c hc
  · exact lt_of_lt_of_le (hxs.within a ha).2.1 (hys.within b hb).1

end Insertions

/-- What stands in front of the enclosed content, and what behind it. -/
def openText (tag : Bytes) : Bytes := 10 :: tag

def closeText (name : Bytes) : Bytes := closeTag name ++ [10]

namespace Source

/-- Enclose what follows the first child named `header`. -/
def enclose (header name tag : Bytes) : Source → Source
  | nil => nil
  | gap g next => gap g (next.enclose header name tag)
  | element t selfClosing inner close next =>
    element t selfClosing inner close
      (if startTagName t = header then
        gap (.text [10]) (element tag false next (some (closeTag name)) (gap (.text [10]) nil))
      else next.enclose header name tag)

/-- Enclose if a start tag is given. -/
def encloseWith (k : Enclosure) (pending : Option Bytes) (s : Source) : Source :=
  pending.elim s (s.enclose k.header k.name)

/-- The tree with its elements' content enclosed. -/
def enclosed (k : Enclosure) (above : List Element) (p : Nat) : Source → Source
  | nil => nil
  | gap g next => gap g (next.enclosed k above (p + g.raw.length))
  | element t selfClosing inner close next =>
    let e := node p t selfClosing inner close
    element t selfClosing ((inner.enclosed k (e :: above) (p + t.length)).encloseWith k (k.tag? ⟨e, above⟩)) close
      (next.enclosed k above (p + t.length + inner.size + (close.getD []).length))

/-- What opens the enclosed content behind the header. -/
def opening (k : Enclosure) (pending : Option Bytes) (t : Bytes) (p : Nat) : Script :=
  if startTagName t = k.header then pending.toList.map fun tag => .edit (.insert p (openText tag)) else []

/-- What is still to be opened behind an element. -/
def stillPending (k : Enclosure) (pending : Option Bytes) (t : Bytes) : Option Bytes :=
  if startTagName t = k.header then none else pending

/-- What closes the enclosed content. -/
def closing (k : Enclosure) (pending : Option Bytes) (p : Nat) : Script :=
  pending.toList.map fun _ => .edit (.insert p (closeText k.name))

/-- The edits from left to right; `pending` is to be opened behind the first header. -/
def encloseScript (k : Enclosure) (above : List Element) (p : Nat) (pending : Option Bytes) : Source → Script
  | nil => []
  | gap g next => .keep g.raw :: next.encloseScript k above (p + g.raw.length) pending
  | element t selfClosing inner close next =>
    let e := node p t selfClosing inner close
    let closePos := p + t.length + inner.size
    let stop := closePos + (close.getD []).length
    .keep t :: (inner.encloseScript k (e :: above) (p + t.length) (k.tag? ⟨e, above⟩) ++
      (closing k (k.tag? ⟨e, above⟩) closePos ++ (.keep (close.getD []) ::
        (opening k pending t stop ++ next.encloseScript k above stop (stillPending k pending t)))))

/-- The first child of a name. -/
def headerStop? (header : Bytes) (p : Nat) : Source → Option Nat
  | nil => none
  | gap g next => next.headerStop? header (p + g.raw.length)
  | element t _ inner close next =>
    let stop := p + t.length + inner.size + (close.getD []).length
    if startTagName t = header then some stop else next.headerStop? header stop

variable {k : Enclosure} {above : List Element} {p : Nat} {pending : Option Bytes} {s : Source}

@[simp] theorem source_opening (t : Bytes) (q : Nat) : (opening k pending t q).source = [] := by
  unfold opening
  split
  · cases pending <;> simp [Change.insert, Change.removed]
  · rfl

@[simp] theorem source_closing (q : Nat) : (closing k pending q).source = [] := by
  cases pending <;> simp [closing, Change.insert, Change.removed]

theorem fits_opening (t : Bytes) (q : Nat) : (opening k pending t q).Fits q := by
  unfold opening
  split
  · cases pending <;> simp [Script.Fits, Change.insert]
  · trivial

theorem fits_closing (q : Nat) : (closing k pending q).Fits q := by
  cases pending <;> simp [closing, Script.Fits, Change.insert]

theorem source_encloseScript : (s.encloseScript k above p pending).source = render s.pieces := by
  induction s generalizing above p pending with
  | nil => rfl
  | gap g next ih => simp [encloseScript, pieces, render_piece, ih]
  | element t selfClosing inner close next ih1 ih2 =>
    cases close <;> simp [encloseScript, pieces, Piece.raw, ih1, ih2]

theorem fits_encloseScript : (s.encloseScript k above p pending).Fits p := by
  induction s generalizing above p pending with
  | nil => trivial
  | gap g next ih => exact ih
  | element t selfClosing inner close next ih1 ih2 =>
    simp only [encloseScript, Script.fits_keep]
    refine Script.fits_append.mpr ⟨ih1, ?_⟩
    rw [source_encloseScript, length_render]
    refine Script.fits_append.mpr ⟨fits_closing _, ?_⟩
    rw [source_closing, List.length_nil, Nat.add_zero, Script.fits_keep]
    refine Script.fits_append.mpr ⟨fits_opening _ _, ?_⟩
    rw [source_opening, List.length_nil, Nat.add_zero]
    exact ih2

/-- An element whose content is enclosed has an end tag and a header, and something stands
between the two. -/
def Enclosable (k : Enclosure) (x : Spot) : Prop :=
  (k.tag? x.place).isSome → x.close.isSome ∧
    ∃ q, x.inner.headerStop? k.header (x.pos + x.tag.length) = some q ∧ q < x.closePos

theorem encloseWith_gap (g : Gap) (next : Source) :
    (gap g next).encloseWith k pending = gap g (next.encloseWith k pending) := by
  cases pending <;> rfl

/-- What follows a child: behind the header it is enclosed, behind another element the search goes on. -/
def encloseBehind (k : Enclosure) (pending : Option Bytes) (t : Bytes) (next : Source) : Source :=
  if startTagName t = k.header then pending.elim next fun tag =>
      gap (.text [10]) (element tag false next (some (closeTag k.name)) (gap (.text [10]) nil))
    else next.encloseWith k pending

theorem encloseWith_element (t : Bytes) (selfClosing : Bool) (inner : Source) (close : Option Bytes) (next : Source) :
    (element t selfClosing inner close next).encloseWith k pending =
      element t selfClosing inner close (next.encloseBehind k pending t) := by
  cases pending with
  | none => simp [encloseWith, encloseBehind]
  | some tag => rfl

theorem headerStop?_isSome_element {t : Bytes} {selfClosing : Bool} {inner : Source} {close : Option Bytes}
    {next : Source} (h : ((element t selfClosing inner close next).headerStop? k.header p).isSome)
    (ht : startTagName t ≠ k.header) :
    (next.headerStop? k.header (p + t.length + inner.size + (close.getD []).length)).isSome := by
  simpa [headerStop?, ht] using h

/-- The edited content, closed where something was opened in it. -/
theorem target_encloseScript (h : s.Each (Enclosable k) above p)
    (hpending : pending.isSome → (s.headerStop? k.header p).isSome) :
    (s.encloseScript k above p pending).target ++ (closing k pending (p + s.size)).target =
      render ((s.enclosed k above p).encloseWith k pending).pieces := by
  have hclosing : ∀ pending q q', (closing k pending q).target = (closing k pending q').target := by
    intro pending q q'
    cases pending <;> rfl
  induction s generalizing above p pending with
  | nil =>
    cases pending with
    | none => rfl
    | some tag => simp [headerStop?] at hpending
  | gap g next ih =>
    have hnext := ih h hpending
    rw [hclosing _ _ (p + (gap g next).size)] at hnext
    rw [enclosed, encloseWith_gap, pieces, render_cons, render_piece, ← hnext]
    simp [encloseScript]
  | element t selfClosing inner close next ih1 ih2 =>
    obtain ⟨hself, h1, h2⟩ := h
    have hinner := @ih1 _ _ (k.tag? ⟨node p t selfClosing inner close, above⟩) h1 (by
      intro hsome
      obtain ⟨-, q, hq, -⟩ := hself hsome
      exact Option.isSome_iff_exists.mpr ⟨q, hq⟩)
    have hrender : ∀ body next', render (element t selfClosing body close next').pieces =
        t ++ (render body.pieces ++ (close.getD [] ++ render next'.pieces)) := by
      intro body next'
      cases close <;> simp [pieces, Piece.raw]
    rw [enclosed, encloseWith_element, hrender, ← hinner]
    simp only [encloseScript, Script.target_keep, Script.target_append, List.append_assoc]
    congr 4
    by_cases ht : startTagName t = k.header
    · have hnext := @ih2 _ _ none h2 (by simp)
      simp only [closing, encloseWith, Option.toList_none, List.map_nil, Script.target_nil, List.append_nil,
        Option.elim_none] at hnext
      rw [encloseBehind, if_pos ht, stillPending, if_pos ht, opening, if_pos ht]
      cases pending with
      | none => simp [closing, hnext]
      | some tag =>
        simp [hnext, closing, pieces, Piece.raw, Gap.piece, Change.insert, openText, closeText]
    · have hnext := @ih2 _ _ pending h2 fun hsome => headerStop?_isSome_element (hpending hsome) ht
      rw [encloseBehind, if_neg ht, stillPending, if_neg ht, opening, if_neg ht, ← hnext]
      rw [hclosing pending (p + (element t selfClosing inner close next).size) (_ + next.size), Script.target_nil,
        List.nil_append]

theorem insertions_opening {t : Bytes} {q hi : Nat} {cs : List Change} (hcs : Insertions (q + 1) hi cs)
    (h : startTagName t = k.header → pending.isSome → q < hi) : Insertions q hi ((opening k pending t q).changes ++ cs) := by
  have hrest := hcs.mono (Nat.le_succ q) le_rfl
  unfold opening
  split
  · next ht =>
    cases pending with
    | none => simpa using hrest
    | some tag => simpa using (Insertions.single (openText tag) (Nat.lt_succ_self q)).append hcs (Nat.le_succ q) (h ht rfl)
  · simpa using hrest

theorem insertions_closing {q hi : Nat} (h : pending.isSome → q < hi) : Insertions q hi (closing k pending q).changes := by
  cases pending with
  | none => exact .nil
  | some tag => simpa [closing] using Insertions.single (closeText k.name) (h rfl)

/-- The edits stand inside the tree, one behind the other. -/
theorem insertions_encloseScript {content : Bytes} (h : s.Each (fun x => x.In content ∧ Enclosable k x) above p)
    (hpending : pending.isSome → ∃ q, s.headerStop? k.header p = some q ∧ q < p + s.size) :
    Insertions (p + 1) (p + s.size) (s.encloseScript k above p pending).changes := by
  induction s generalizing above p pending with
  | nil => exact .nil
  | gap g next ih =>
    simp only [size, ← Nat.add_assoc] at hpending ⊢
    exact (ih h hpending).mono (by omega) le_rfl
  | element t selfClosing inner close next ih1 ih2 =>
    obtain ⟨⟨hin, hself⟩, h1, h2⟩ := h
    have ht : 0 < t.length := Patch.tag_length_pos hin
    simp only [size, ← Nat.add_assoc] at hpending ⊢
    have hinner := @ih1 _ _ (k.tag? ⟨node p t selfClosing inner close, above⟩) h1 fun hsome => (hself hsome).2
    have hclosing := @insertions_closing k (k.tag? ⟨node p t selfClosing inner close, above⟩)
      (p + t.length + inner.size) (p + t.length + inner.size + (close.getD []).length)
      fun hsome => Nat.lt_add_of_pos_right (Patch.close_length_pos hin (hself hsome).1)
    have hnext := @ih2 _ _ (stillPending k pending t) h2 (by
      intro hsome
      unfold stillPending at hsome
      split at hsome
      · cases hsome
      · next hname => simpa [headerStop?, hname] using hpending hsome)
    have hbehind := @insertions_opening k pending t _ _ _ hnext (by
      intro hname hsome
      obtain ⟨q, hq, hlt⟩ := hpending hsome
      simp only [headerStop?, hname, if_true, Option.some.injEq] at hq
      omega)
    simp only [encloseScript, Script.changes_keep, Script.changes_append]
    exact (hinner.mono (by omega) le_rfl).append (hclosing.append hbehind (by omega) (by omega)) (by omega) (by omega)

/-- The edit that opens the enclosed content behind a header. -/
def openedEdit (stop? : Option Nat) (pending : Option Bytes) : List Change :=
  stop?.toList.flatMap fun q => pending.toList.map fun tag => .insert q (openText tag)

@[simp] theorem openedEdit_none (stop? : Option Nat) : openedEdit stop? none = [] := by
  cases stop? <;> rfl

/-- The edits of an element whose content is enclosed. -/
def encloseEdits (k : Enclosure) (x : Spot) : List Change :=
  openedEdit (x.inner.headerStop? k.header (x.pos + x.tag.length)) (k.tag? x.place) ++
    (closing k (k.tag? x.place) x.closePos).changes

/-- The edits of a tree, grouped by the elements they belong to. -/
theorem encloseScript_perm {edits : Place → List Change} (h : s.Each (fun x => encloseEdits k x = edits x.place) above p) :
    (openedEdit (s.headerStop? k.header p) pending ++ (Element.placesIn above (s.build p)).flatMap edits).Perm
      (s.encloseScript k above p pending).changes := by
  induction s generalizing above p pending with
  | nil => exact List.Perm.refl _
  | gap g next ih => exact ih h
  | element t selfClosing inner close next ih1 ih2 =>
    obtain ⟨hself, h1, h2⟩ := h
    have hinner := @ih1 _ _ (k.tag? ⟨node p t selfClosing inner close, above⟩) h1
    have hnext := @ih2 _ _ (stillPending k pending t) h2
    have hopened : openedEdit ((element t selfClosing inner close next).headerStop? k.header p) pending =
        (opening k pending t (p + t.length + inner.size + (close.getD []).length)).changes ++
          openedEdit (next.headerStop? k.header (p + t.length + inner.size + (close.getD []).length))
            (stillPending k pending t) := by
      by_cases ht : startTagName t = k.header
      · cases pending <;> simp [headerStop?, opening, stillPending, ht, openedEdit]
      · simp [headerStop?, opening, stillPending, ht]
    have hedits : edits ⟨node p t selfClosing inner close, above⟩ =
        openedEdit (inner.headerStop? k.header (p + t.length)) (k.tag? ⟨node p t selfClosing inner close, above⟩) ++
          (closing k (k.tag? ⟨node p t selfClosing inner close, above⟩) (p + t.length + inner.size)).changes :=
      hself.symm
    rw [placesIn_element, List.flatMap_cons, List.flatMap_append, hopened, hedits]
    simp only [encloseScript, Script.changes_keep, Script.changes_append]
    rw [List.perm_iff_count] at hinner hnext ⊢
    intro c
    have e1 := hinner c
    have e2 := hnext c
    simp only [List.count_append] at e1 e2 ⊢
    omega

/-- Changes that are those of the enclosures, in any order, give the enclosed tree. -/
theorem applyChanges_enclosed {cs : List Change} (edits : Place → List Change) {content : Bytes}
    (h : s.Each (fun x => x.In content ∧ Enclosable k x) [] 0)
    (hedits : s.Each (fun x => encloseEdits k x = edits x.place) [] 0)
    (hperm : cs.Perm ((Element.placesIn [] (s.build 0)).flatMap edits))
    (hcs : ∀ c ∈ cs, c.inserts [] = false) :
    applyChanges (render s.pieces) cs = .ok (render (s.enclosed k [] 0).pieces) := by
  obtain ⟨hmem, hpair⟩ := @insertions_encloseScript k [] 0 none s content h (by simp)
  have hscript := @encloseScript_perm k [] 0 none s edits hedits
  rw [openedEdit_none, List.nil_append] at hscript
  have htarget := @target_encloseScript k [] 0 none s (h.imp fun x hx => hx.2) (by simp)
  simp only [closing, encloseWith, Option.toList_none, List.map_nil, Script.target_nil, List.append_nil,
    Option.elim_none] at htarget
  rw [← @source_encloseScript k [] 0 none s, ← htarget]
  refine Script.applyChanges_eq fits_encloseScript ?_ (keyed_eq_of_perm [] (hperm.trans hscript) ?_ ?_)
  · refine Script.sorted_of_fits fits_encloseScript fun c hc hm => ?_
    rw [(hmem c hc).2.2] at hm
    cases hm
  · refine hpair.imp fun {a b} hlt hkey => ?_
    simp only [Change.key, Prod.mk.injEq] at hkey
    omega
  · refine List.Pairwise.imp_of_mem (fun {a b} ha _ _ hw => ?_) (List.pairwise_of_forall (R := fun _ _ => True) (by simp))
    rw [hcs a ha] at hw
    cases hw

end Source

/-- The names of an enclosure have no rules of their own. -/
structure Enclosure.Plain (k : Enclosure) : Prop where
  header : Ordinary k.header
  name : Ordinary k.name
  tagName : TagName k.name

theorem Enclosure.Plain.ordinary_header {k : Enclosure} (hk : k.Plain) {t : Bytes} (ht : startTagName t = k.header) :
    Ordinary (startTagName t) := ht ▸ hk.header

/-- An element whose content is enclosed by one start tag. -/
def Enclosure.Sound (k : Enclosure) (x : Spot) : Prop :=
  ∀ tag ∈ k.tag? x.place, Ordinary x.name ∧ IsStartTag tag false ∧ startTagName tag = k.name

namespace Source

variable {k : Enclosure} {above : List Element} {p : Nat} {pending : Option Bytes} {s : Source}

def closingPieces (k : Enclosure) (pending : Option Bytes) : List Piece :=
  pending.toList.flatMap fun _ => [.stop (closeTag k.name), .text [10]]

theorem precedes_closing (hk : k.Plain) : Precedes [.stop (closeTag k.name), .text [10]] := by
  have hend := hk.tagName.isEndTag
  refine ⟨fun qs _ => hend.leads _, fun qs hqs hread => .stop hend ?_ (.text rfl hqs hread)⟩
  rw [hk.tagName.endTagName]
  exact hk.name.void

theorem follows_opening (hk : k.Plain) {tag : Bytes} (htag : IsStartTag tag false) (hname : startTagName tag = k.name) :
    Follows [.text [10], .start tag false] := by
  intro qs hqs
  refine .text rfl (htag.leads _) (.start htag ?_)
  rw [Ordinary.rawName? (hname ▸ hk.name)]
  exact hqs

/-- The pieces behind a child, up to what closes the rest. Only behind a header something is opened. -/
theorem exists_pieces_encloseBehind (hk : k.Plain) (hpending : ∀ tag ∈ pending, IsStartTag tag false ∧ startTagName tag = k.name)
    {t : Bytes} {next after : Source} (hhere : startTagName t = k.header → Rewrites next.pieces after.pieces)
    (hthere : startTagName t ≠ k.header →
      ∃ ps, (after.encloseWith k pending).pieces = ps ++ closingPieces k pending ∧ Rewrites next.pieces ps) :
    ∃ xs ps, (after.encloseBehind k pending t).pieces = xs ++ (ps ++ closingPieces k pending) ∧
      Rewrites next.pieces ps ∧ (xs = [] ∨ startTagName t = k.header ∧ Follows xs) := by
  unfold encloseBehind
  split
  · next ht =>
    cases pending with
    | none => exact ⟨[], after.pieces, by simp [closingPieces], hhere ht, Or.inl rfl⟩
    | some tag =>
      obtain ⟨htag, hname⟩ := hpending tag rfl
      refine ⟨[.text [10], .start tag false], after.pieces, ?_, hhere ht, Or.inr ⟨ht, follows_opening hk htag hname⟩⟩
      simp [pieces, Gap.piece, closingPieces]
  · next ht =>
    obtain ⟨ps, hps, hrw⟩ := hthere ht
    exact ⟨[], ps, hps, hrw, Or.inl rfl⟩

theorem Enclosable.isSome_headerStop? {x : Spot} (h : Enclosable k x) (hsome : (k.tag? x.place).isSome) :
    (x.inner.headerStop? k.header (x.pos + x.tag.length)).isSome := by
  obtain ⟨-, q, hq, -⟩ := h hsome
  exact Option.isSome_iff_exists.mpr ⟨q, hq⟩

/-- Nothing is enclosed in an element without an end tag. -/
theorem Enclosable.tag?_eq_none {x : Spot} (h : Enclosable k x) (hclose : x.close = none) : k.tag? x.place = none := by
  by_contra hne
  have hsome := (h (Option.isSome_iff_ne_none.mpr hne)).1
  rw [hclose] at hsome
  cases hsome

/-- The pieces of the enclosed tree, up to what closes it. -/
theorem rewrites_enclosed (hk : k.Plain) {content : Bytes}
    (h : s.Each (fun x => x.In content ∧ Enclosable k x ∧ k.Sound x) above p)
    (hpending : ∀ tag ∈ pending, IsStartTag tag false ∧ startTagName tag = k.name)
    (hheader : pending.isSome → (s.headerStop? k.header p).isSome) :
    ∃ ps, ((s.enclosed k above p).encloseWith k pending).pieces = ps ++ closingPieces k pending ∧
      Rewrites s.pieces ps := by
  induction s generalizing above p pending with
  | nil =>
    cases pending with
    | none => exact ⟨[], rfl, .nil⟩
    | some tag => simp [headerStop?] at hheader
  | gap g next ih =>
    obtain ⟨ps, hps, hrw⟩ := ih h hpending hheader
    exact ⟨g.piece :: ps, by rw [enclosed, encloseWith_gap, pieces, hps]; rfl, .keep _ hrw⟩
  | element t selfClosing inner close next ih1 ih2 =>
    obtain ⟨⟨hin, hable, hsound⟩, h1, h2⟩ := h
    have hin' : IsStartTag t selfClosing := hin.start
    obtain ⟨ps₁, hps₁, hrw₁⟩ := @ih1 _ _ (k.tag? ⟨node p t selfClosing inner close, above⟩) h1
      (fun tag htag => (hsound tag htag).2) hable.isSome_headerStop?
    have hhere : Rewrites next.pieces
        (next.enclosed k above (p + t.length + inner.size + (close.getD []).length)).pieces := by
      obtain ⟨ps, hps, hrw⟩ := @ih2 _ _ none h2 (by simp) (by simp)
      have hps : _ = ps := hps.trans (List.append_nil ps)
      exact hps ▸ hrw
    obtain ⟨xs, ps₂, hps₂, hrw₂, hxs⟩ := exists_pieces_encloseBehind hk hpending (fun _ => hhere) fun ht =>
      ih2 h2 hpending fun hsome => headerStop?_isSome_element (hheader hsome) ht
    refine ⟨.start t selfClosing :: (ps₁ ++ (closingPieces k (k.tag? ⟨node p t selfClosing inner close, above⟩) ++
      (close.toList.map Piece.stop ++ (xs ++ ps₂)))), ?_, ?_⟩
    · rw [enclosed, encloseWith_element, pieces, hps₁, hps₂]
      simp
    cases hclose : close with
    | none =>
      subst hclose
      rw [show k.tag? ⟨node p t selfClosing inner none, above⟩ = none from hable.tag?_eq_none rfl]
      rcases hxs with rfl | ⟨ht, hfollows⟩
      · exact .keep _ (hrw₁.append hrw₂)
      · -- A header without an end tag closes itself, so nothing stands in it.
        have hself : selfClosing = true := (closed_of_ordinary hin (hk.ordinary_header ht)).resolve_right (by simp)
        obtain ⟨hinner, -⟩ : inner = nil ∧ _ := hin.leaf (by simp [Spot.leaf, leaf, hself])
        subst hinner
        rw [hrw₁.eq_nil]
        change Rewrites (.start t selfClosing :: next.pieces) (.start t selfClosing :: (xs ++ ps₂))
        exact .start (Ordinary.rawName? (hk.ordinary_header ht)) hin' (Ordinary.rawName? (hk.ordinary_header ht)) hfollows hrw₂
    | some c =>
      subst hclose
      obtain ⟨hend, hname⟩ := hin.stop c rfl
      have hname : endTagName c = startTagName t := hname
      have hraw : Ordinary (startTagName t) → endsRaw c = false := by
        intro ho
        rw [endsRaw, hname]
        exact ho.raw
      have hstop : Rewrites (.stop c :: next.pieces) (.stop c :: (xs ++ ps₂)) := by
        rcases hxs with rfl | ⟨ht, hfollows⟩
        · exact .keep _ hrw₂
        · exact .stop (hraw (hk.ordinary_header ht)) hend (by rw [hname]; exact (hk.ordinary_header ht).void) hfollows hrw₂
      refine .keep _ (hrw₁.append ?_)
      cases htag : k.tag? ⟨node p t selfClosing inner (some c), above⟩ with
      | none => exact hstop
      | some tag =>
        exact .beforeStop (hraw (hsound tag htag).1) (precedes_closing hk) hstop

/-- The rest in an element of its own is nested, and nothing in it is left open. -/
theorem nested_wrapped (hk : k.Plain) {tag : Bytes} (htag : startTagName tag = k.name) {parent : Option Bytes}
    {after : Source} (hn : after.Nested parent []) (hspine : ∀ m ∈ after.spine [], hasOptionalEnd m = true) :
    (gap (.text [10]) (element tag false after (some (closeTag k.name)) (gap (.text [10]) nil))).Nested parent [] := by
  have hord : Ordinary (startTagName tag) := htag ▸ hk.name
  have hname : endTagName (closeTag k.name) = startTagName tag := hk.tagName.endTagName.trans htag.symm
  exact ⟨rfl, nested_ordinary hord hname hn hspine ⟨rfl, trivial⟩⟩

/-- What follows a child is nested as before; behind a header nothing is open. -/
theorem nested_encloseBehind (hk : k.Plain) (hpending : ∀ tag ∈ pending, IsStartTag tag false ∧ startTagName tag = k.name)
    {t : Bytes} {parent : Option Bytes} {held : List Bytes} {next after : Source}
    (hhere : startTagName t = k.header →
      held = [] ∧ after.Nested parent held ∧ after.spine held = next.spine held)
    (hthere : startTagName t ≠ k.header → (after.encloseWith k pending).Nested parent held ∧
      (after.encloseWith k pending).spine held = if pending.isSome then [] else next.spine held)
    (hoptional : pending.isSome → ∀ m ∈ next.spine held, hasOptionalEnd m = true) :
    (after.encloseBehind k pending t).Nested parent held ∧
      (after.encloseBehind k pending t).spine held = if pending.isSome then [] else next.spine held := by
  unfold encloseBehind
  split
  · next ht =>
    obtain ⟨rfl, h1, h2⟩ := hhere ht
    cases pending with
    | none => exact ⟨h1, h2⟩
    | some tag => exact ⟨nested_wrapped hk (hpending tag rfl).2 h1 (h2 ▸ hoptional rfl), by simp [spine]⟩
  · next ht => exact hthere ht

/-- The enclosed tree is nested as before; what encloses content leaves nothing open. -/
theorem nested_enclosed (hk : k.Plain) {content : Bytes}
    (h : s.Each (fun x => x.In content ∧ Enclosable k x ∧ k.Sound x) above p)
    (hpending : ∀ tag ∈ pending, IsStartTag tag false ∧ startTagName tag = k.name)
    {parent : Option Bytes} {held : List Bytes} (hn : s.Nested parent held)
    (hheader : pending.isSome → (s.headerStop? k.header p).isSome ∧ ∀ m ∈ s.spine held, hasOptionalEnd m = true) :
    ((s.enclosed k above p).encloseWith k pending).Nested parent held ∧
      ((s.enclosed k above p).encloseWith k pending).spine held = if pending.isSome then [] else s.spine held := by
  induction s generalizing above p pending parent held with
  | nil =>
    cases pending with
    | none => exact ⟨trivial, rfl⟩
    | some tag => simp [headerStop?] at hheader
  | gap g next ih =>
    obtain ⟨h1, h2⟩ := ih h hpending hn.2 hheader
    rw [enclosed, encloseWith_gap]
    exact ⟨⟨hn.1, h1⟩, h2⟩
  | element t selfClosing inner close next ih1 ih2 =>
    obtain ⟨⟨hin, hable, hsound⟩, h1, h2⟩ := h
    obtain ⟨g1, g2⟩ := @ih1 _ _ (k.tag? ⟨node p t selfClosing inner close, above⟩) h1
      (fun tag htag => (hsound tag htag).2) _ _ hn.inner fun hsome =>
        ⟨hable.isSome_headerStop? hsome, hn.optional_inner (by simp [show close.isSome = true from (hable hsome).1])⟩
    have hnone : close = none → k.tag? ⟨node p t selfClosing inner close, above⟩ = none := hable.tag?_eq_none
    have hnil : leaf t selfClosing = true →
        (inner.enclosed k (node p t selfClosing inner close :: above) (p + t.length)).encloseWith k
          (k.tag? ⟨node p t selfClosing inner close, above⟩) = nil := by
      intro hl
      obtain ⟨hinner, hclose⟩ := hin.leaf hl
      dsimp only at hinner hclose
      rw [hnone hclose, hinner]
      rfl
    rw [enclosed, encloseWith_element]
    generalize (inner.enclosed k (node p t selfClosing inner close :: above) (p + t.length)).encloseWith k
      (k.tag? ⟨node p t selfClosing inner close, above⟩) = body at g1 g2 hnil
    have hspine : ∀ m ∈ body.spine [], m ∈ inner.spine [] := by
      rw [g2]
      split <;> simp
    have hopen : close = none → body.spine [] = inner.spine [] := by
      intro hclose
      rw [g2, hnone hclose]
      rfl
    obtain ⟨r1, r2⟩ := @nested_encloseBehind k pending hk hpending t parent (openBehind t selfClosing inner close) next
      (next.enclosed k above (p + t.length + inner.size + (close.getD []).length))
      (fun ht => ⟨if_pos (leaf_or_close_of_ordinary hin (hk.ordinary_header ht)), @ih2 _ _ none h2 (by simp) _ _ hn.2.2 (by simp)⟩)
      (fun ht => ih2 h2 hpending hn.2.2 fun hsome => ⟨headerStop?_isSome_element (hheader hsome).1 ht, (hheader hsome).2⟩)
      fun hsome => (hheader hsome).2
    obtain ⟨hnested, hlast⟩ := hn.replace rfl (fun _ h => h) hnil g1 hspine hopen r1
    exact ⟨hnested, hlast.trans r2⟩

/-- Enclosing content keeps a template well-formed. -/
theorem WellFormed.enclosed (hs : s.WellFormed) (hk : k.Plain) {content : Bytes}
    (h : s.Each (fun x => x.In content ∧ Enclosable k x ∧ k.Sound x) [] 0) : (s.enclosed k [] 0).WellFormed := by
  obtain ⟨ps, hps, hrw⟩ := @rewrites_enclosed k [] 0 none s hk content h (by simp) (by simp)
  obtain ⟨h1, h2⟩ := @nested_enclosed k [] 0 none s hk content h (by simp) _ _ hs.nested (by simp)
  have hps : (s.enclosed k [] 0).pieces = ps := by simpa [encloseWith, closingPieces] using hps
  refine ⟨hps ▸ hrw.reads hs.reads, h1, ?_⟩
  have h2 : (s.enclosed k [] 0).spine [] = s.spine [] := h2
  rw [h2]
  exact hs.optional

end Source

end Codemod.Markup
