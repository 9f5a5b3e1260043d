import Codemod.Proofs.Release12.ImportList

namespace Codemod.Release12

open Edit Markup Text

/-- What becomes of an entry: the text that stands in its place, or none if it goes away. -/
structure Fate where
  entry : Specifier
  text : Option Bytes
  deriving DecidableEq

/-- Old names go away once the row type is imported, and the first of them makes room for it before. -/
def fates : Bool → List Specifier → List Fate
  | _, [] => []
  | imported, s :: rest =>
    let old := rowComponents.contains s.text
    ⟨s, if old then if imported then none else some rowTypeName else some s.text⟩ :: fates (imported || old) rest

/-- The names of a list after that. -/
def keptNames : Bool → List Bytes → List Bytes
  | _, [] => []
  | imported, name :: rest =>
    if rowComponents.contains name then
      if imported then keptNames true rest else rowTypeName :: keptNames true rest
    else name :: keptNames imported rest

/-- The entry as the edits mark it. -/
def Fate.mark (f : Fate) : Specifier × Bool := (f.entry, f.text.isNone)

/-- The edit of an entry that gets a new text. -/
def Fate.replacement? (f : Fate) : Option Change :=
  f.text.bind fun text => if text = f.entry.text then none else some (.replace f.entry.span.start f.entry.text text)

/-- Whether a list keeps an entry. -/
def someKept (fs : List Fate) : Bool := fs.any (·.text.isSome)

theorem rowTypeName_not_old : rowComponents.contains rowTypeName = false := rfl

section Marks

variable {imported : Bool} {specs : List Specifier}

theorem map_entry_fates (imported : Bool) (specs : List Specifier) : (fates imported specs).map (·.entry) = specs := by
  induction specs generalizing imported with
  | nil => rfl
  | cons s rest ih => rw [fates, List.map_cons, ih]

theorem filterMap_fates (imported : Bool) (specs : List Specifier) :
    (fates imported specs).filterMap (·.text) = keptNames imported (specs.map (·.text)) := by
  induction specs generalizing imported with
  | nil => rfl
  | cons s rest ih =>
    rw [fates, List.map_cons, keptNames, List.filterMap_cons, ih]
    cases hold : rowComponents.contains s.text <;> cases imported <;> rfl

theorem markSpecifiers_eq : markSpecifiers imported specs =
    (imported || specs.any (rowComponents.contains ·.text), (fates imported specs).map Fate.mark,
      (fates imported specs).filterMap Fate.replacement?) := by
  induction specs generalizing imported with
  | nil => simp [markSpecifiers, fates]
  | cons s rest ih =>
    rw [markSpecifiers, ih, fates, List.map_cons, List.filterMap_cons, List.any_cons, ← Bool.or_assoc]
    cases hold : rowComponents.contains s.text with
    | false => simp [-List.contains_eq_mem, Fate.mark, Fate.replacement?]
    | true =>
      have hne : rowTypeName ≠ s.text := by
        intro heq
        rw [← heq, rowTypeName_not_old] at hold
        cases hold
      cases imported with
      | false => simp [-List.contains_eq_mem, Fate.mark, Fate.replacement?, hne]
      | true => simp [-List.contains_eq_mem, Fate.mark, Fate.replacement?]

/-- What stands in the place of an entry: its own text or the row type. -/
theorem text_of_mem_fates {f : Fate} {text : Bytes} (hf : f ∈ fates imported specs) (htext : f.text = some text) :
    text = f.entry.text ∨ rowComponents.contains f.entry.text = true ∧ text = rowTypeName := by
  induction specs generalizing imported with
  | nil => cases hf
  | cons s rest ih =>
    obtain rfl | hf := List.mem_cons.mp hf
    · dsimp only at htext
      split at htext
      · next hold =>
        split at htext
        · cases htext
        · exact .inr ⟨hold, (Option.some.inj htext).symm⟩
      · exact .inl (Option.some.inj htext).symm
    · exact ih hf

/-- An entry that goes away has an old name. -/
theorem old_of_mem_fates {f : Fate} (hf : f ∈ fates imported specs) (htext : f.text = none) :
    rowComponents.contains f.entry.text = true := by
  induction specs generalizing imported with
  | nil => cases hf
  | cons s rest ih =>
    obtain rfl | hf := List.mem_cons.mp hf
    · cases hold : rowComponents.contains s.text with
      | false =>
        rw [hold] at htext
        cases htext
      | true => rfl
    · exact ih hf

end Marks

/-- The last entry that a list keeps parts it: those before stay or go up to the next entry, those behind go. -/
theorem kept_induction {P : ∀ (f : Fate) (rest : List Fate), someKept (f :: rest) = true → Prop}
    (ends : ∀ s text dropped h, someKept dropped = false → P ⟨s, some text⟩ dropped h)
    (keep : ∀ s text next rest h, (hlater : someKept (next :: rest) = true) → P next rest hlater →
      P ⟨s, some text⟩ (next :: rest) h)
    (drop : ∀ s next rest h, (hlater : someKept (next :: rest) = true) → P next rest hlater →
      P ⟨s, none⟩ (next :: rest) h) (f : Fate) (rest : List Fate) (h : someKept (f :: rest) = true) : P f rest h := by
  induction rest generalizing f with
  | nil =>
    obtain ⟨s, _ | text⟩ := f
    · cases h
    · exact ends s text [] h rfl
  | cons next rest ih =>
    obtain ⟨s, text⟩ := f
    cases hlater : someKept (next :: rest) with
    | true =>
      cases text with
      | none => exact drop s next rest h hlater (ih next hlater)
      | some text => exact keep s text next rest h hlater (ih next hlater)
    | false =>
      cases text with
      | none =>
        rw [someKept, List.any_cons] at h
        exact absurd (hlater.symm.trans h) Bool.false_ne_true
      | some text => exact ends s text _ h hlater

section Remove

variable {content : Bytes} {s : Specifier} {text : Bytes} {f next : Fate} {rest : List Fate}

theorem any_kept_marks (fs : List Fate) : (fs.map Fate.mark).any (!·.2) = someKept fs := by
  rw [List.any_map, someKept]
  congr 1
  funext f
  exact (Option.not_isNone f.text)

theorem dropWhile_marks (h : someKept rest = true) :
    (((f :: rest).map Fate.mark).reverse.dropWhile (·.2)) = (rest.map Fate.mark).reverse.dropWhile (·.2) ++ [f.mark] ∧
      (rest.map Fate.mark).reverse.dropWhile (·.2) ≠ [] := by
  have hne : (rest.map Fate.mark).reverse.dropWhile (·.2) ≠ [] := by
    intro hnil
    rw [List.dropWhile_eq_nil_iff] at hnil
    rw [← any_kept_marks, List.any_eq_true] at h
    obtain ⟨x, hx, hkept⟩ := h
    have hdropped : x.2 = true := hnil x (List.mem_reverse.mpr hx)
    rw [hdropped] at hkept
    cases hkept
  refine ⟨?_, hne⟩
  rw [List.map_cons, List.reverse_cons, List.dropWhile_append, if_neg (by simpa using hne)]

/-- An entry in front of one that is kept goes up to the next entry, or stays. -/
theorem removeSpecifiers_cons (h : someKept (next :: rest) = true) :
    removeSpecifiers content ((f :: next :: rest).map Fate.mark) =
      (if f.text = none then [.deleteSpan content ⟨f.entry.span.start, next.entry.span.start⟩] else []) ++
        removeSpecifiers content ((next :: rest).map Fate.mark) := by
  obtain ⟨hkept, hne⟩ := dropWhile_marks (f := f) h
  obtain ⟨x, kept, hcons⟩ := List.exists_cons_of_ne_nil hne
  unfold removeSpecifiers
  rw [hkept, hcons]
  simp only [List.cons_append, List.length_cons, List.length_append, List.length_nil, Nat.add_sub_cancel,
    List.head?_cons, List.map_cons, List.drop_succ_cons, List.drop_zero, List.zip_cons_cons, Nat.zero_add,
    List.take_succ_cons, List.getLast?_cons, List.filter_cons]
  cases hmark : f.mark.2 with
  | false =>
    have htext : f.text ≠ none := by
      intro hnone
      rw [Fate.mark, hnone] at hmark
      cases hmark
    rw [if_neg htext]
    simp
  | true =>
    have htext : f.text = none := Option.isNone_iff_eq_none.mp hmark
    rw [if_pos htext]
    split <;> simp_all [Fate.mark]

/-- The entries behind the last kept one go from its end. -/
theorem removeSpecifiers_last {dropped : List Fate} (h : someKept dropped = false) :
    removeSpecifiers content ((⟨s, some text⟩ :: dropped : List Fate).map Fate.mark) =
      (dropped.getLast?.map fun last => .deleteSpan content ⟨s.span.stop, last.entry.span.stop⟩).toList := by
  have hdropped : ∀ f ∈ dropped, f.mark.2 = true := by
    rw [someKept, List.any_eq_false] at h
    intro f hf
    simpa [Fate.mark] using h f hf
  have hkept : ((⟨s, some text⟩ :: dropped : List Fate).map Fate.mark).reverse.dropWhile (·.2) = [(s, false)] := by
    have hnil : (dropped.map Fate.mark).reverse.dropWhile (·.2) = [] := by
      rw [List.dropWhile_eq_nil_iff]
      intro x hx
      obtain ⟨f, hf, rfl⟩ := List.mem_map.mp (List.mem_reverse.mp hx)
      exact hdropped f hf
    rw [List.map_cons, List.reverse_cons, List.dropWhile_append, hnil]
    rfl
  unfold removeSpecifiers
  rw [hkept, List.map_cons, List.getLast?_cons, List.getLast?_map]
  cases hlast : dropped.getLast? with
  | none => rfl
  | some last =>
    have hmark : last.mark = (last.entry, true) := Prod.ext rfl (hdropped last (List.mem_of_getLast? hlast))
    rw [Option.map_some, hmark]
    rfl

end Remove

/-- The cuts of an entry that stays: those in it, or the new text in its place. -/
def entryCuts (inner : Span → List Cut) (s : Specifier) (text : Bytes) : List Cut :=
  if text = s.text then inner s.span else [⟨s.span, text⟩]

/-- The cuts of a list that keeps an entry, with further ones inside the entries that stay as they are. -/
def listCuts (inner : Span → List Cut) : List Fate → List Cut
  | [] => []
  | f :: rest =>
    let own := f.text.elim [] (entryCuts inner f.entry)
    if someKept rest then
      if f.text = none then
        (rest.head?.map fun next => ⟨⟨f.entry.span.start, next.entry.span.start⟩, []⟩).toList ++ listCuts inner rest
      else own ++ listCuts inner rest
    else own ++ (rest.getLast?.map fun last => ⟨⟨f.entry.span.stop, last.entry.span.stop⟩, []⟩).toList

section Cuts

variable {content : Bytes} {inner : Span → List Cut} {s : Specifier} {text : Bytes} {next : Fate} {rest dropped : List Fate}

theorem listCuts_keep (h : someKept (next :: rest) = true) :
    listCuts inner (⟨s, some text⟩ :: next :: rest) = entryCuts inner s text ++ listCuts inner (next :: rest) := by
  rw [listCuts, if_pos h, if_neg (Option.some_ne_none text)]
  rfl

theorem listCuts_drop (h : someKept (next :: rest) = true) :
    listCuts inner (⟨s, none⟩ :: next :: rest) =
      ⟨⟨s.span.start, next.entry.span.start⟩, []⟩ :: listCuts inner (next :: rest) := by
  rw [listCuts, if_pos h, if_pos rfl]
  rfl

theorem listCuts_last (h : someKept dropped = false) :
    listCuts inner (⟨s, some text⟩ :: dropped) = entryCuts inner s text ++
      (dropped.getLast?.map fun last => ⟨⟨s.span.stop, last.entry.span.stop⟩, []⟩).toList := by
  rw [listCuts, if_neg (by rw [h]; exact Bool.false_ne_true)]
  rfl

/-- The cuts inside the entries that stay as they are. -/
def innerCuts (inner : Span → List Cut) (fs : List Fate) : List Cut :=
  fs.flatMap fun f => if f.text = some f.entry.text then inner f.entry.span else []

theorem innerCuts_cons (f : Fate) : innerCuts inner (f :: rest) =
    (if f.text = some f.entry.text then inner f.entry.span else []) ++ innerCuts inner rest := rfl

theorem filterMap_replacement?_cons (f : Fate) : (f :: rest).filterMap Fate.replacement? =
    f.replacement?.toList ++ rest.filterMap Fate.replacement? := by
  rw [List.filterMap_cons]
  cases f.replacement? <;> rfl

theorem dropped_quiet (inner : Span → List Cut) (h : someKept dropped = false) :
    dropped.filterMap Fate.replacement? = [] ∧ innerCuts inner dropped = [] := by
  rw [someKept, List.any_eq_false] at h
  have hnone : ∀ f ∈ dropped, f.text = none := fun f hf => by simpa using h f hf
  refine ⟨List.filterMap_eq_nil_iff.mpr fun f hf => ?_, List.flatMap_eq_nil_iff.mpr fun f hf => ?_⟩
  · rw [Fate.replacement?, hnone f hf]
    rfl
  · rw [hnone f hf]
    exact if_neg (by simp)

/-- An entry that stays is given its new text, or is changed inside. -/
theorem entryCuts_changes (inner : Span → List Cut) (text : Bytes) (hthere : s.span.text content = s.text) :
    (Fate.replacement? ⟨s, some text⟩).toList ++
        (if (Fate.mk s (some text)).text = some s.text then inner s.span else []).map (Cut.change content) =
      (entryCuts inner s text).map (Cut.change content) := by
  unfold entryCuts Fate.replacement?
  by_cases htext : text = s.text
  · simp [htext]
  · simp [htext, Cut.change, Change.replaceSpan, hthere]

/-- The edits of a list and those inside its entries are its cuts. -/
theorem listCuts_perm {f : Fate} (h : someKept (f :: rest) = true)
    (hthere : ∀ g ∈ f :: rest, g.entry.span.text content = g.entry.text) :
    ((f :: rest).filterMap Fate.replacement? ++ removeSpecifiers content ((f :: rest).map Fate.mark) ++
      (innerCuts inner (f :: rest)).map (Cut.change content)).Perm
        ((listCuts inner (f :: rest)).map (Cut.change content)) := by
  -- the edits come kind by kind and the cuts from left to right, so they are counted
  rw [List.perm_iff_count]
  intro c
  induction f, rest, h using kept_induction with
  | ends s text dropped _ hdropped =>
    obtain ⟨hreplaced, hinner⟩ := dropped_quiet inner hdropped
    have hown := congrArg (List.count c) (entryCuts_changes inner text (hthere _ List.mem_cons_self))
    have htail : (dropped.getLast?.map fun last => Change.deleteSpan content ⟨s.span.stop, last.entry.span.stop⟩).toList =
        ((dropped.getLast?.map fun last => Cut.mk ⟨s.span.stop, last.entry.span.stop⟩ []).toList).map
          (Cut.change content) := by
      cases dropped.getLast? <;> rfl
    rw [filterMap_replacement?_cons, hreplaced, innerCuts_cons, hinner, removeSpecifiers_last hdropped,
      listCuts_last hdropped, htail, List.append_nil, List.append_nil, List.map_append]
    simp only [List.count_append] at hown ⊢
    omega
  | keep s text next rest _ hlater ih =>
    have hown := congrArg (List.count c) (entryCuts_changes inner text (hthere _ List.mem_cons_self))
    have hrest := ih fun g hg => hthere g (List.mem_cons_of_mem _ hg)
    rw [filterMap_replacement?_cons, innerCuts_cons, removeSpecifiers_cons hlater, if_neg (Option.some_ne_none text),
      List.nil_append, listCuts_keep hlater]
    simp only [List.map_append, List.count_append] at hown hrest ⊢
    omega
  | drop s next rest _ hlater ih =>
    have hrest := ih fun g hg => hthere g (List.mem_cons_of_mem _ hg)
    have hcut : (Cut.mk ⟨s.span.start, next.entry.span.start⟩ [] :: listCuts inner (next :: rest)).map
        (Cut.change content) = .deleteSpan content ⟨s.span.start, next.entry.span.start⟩ ::
          (listCuts inner (next :: rest)).map (Cut.change content) := rfl
    have hnone : (Fate.replacement? ⟨s, none⟩).toList = [] := rfl
    rw [filterMap_replacement?_cons, innerCuts_cons, removeSpecifiers_cons hlater, if_pos rfl, listCuts_drop hlater,
      if_neg nofun, hcut, hnone, List.nil_append, List.nil_append]
    simp only [List.count_append, List.count_cons, List.count_nil] at hrest ⊢
    omega

/-- Cuts to go with those of the imports, for each range the ones that lie in it. -/
structure Fits (inner : Span → List Cut) : Prop where
  chain : ∀ span, span.start ≤ span.stop → Chain span.stop span.start (inner span)
  text : ∀ span, ∀ c ∈ inner span, c.text = rowTypeName

theorem chain_entryCuts (hinner : Fits inner) (hlt : s.span.start < s.span.stop) :
    Chain s.span.stop s.span.start (entryCuts inner s text) := by
  unfold entryCuts
  split
  · exact hinner.chain s.span hlt.le
  · exact ⟨Nat.le_refl _, hlt, Nat.le_refl _⟩

variable {stop p : Nat} {prev : Option Specifier}

theorem chain_trailing (h : Entries content stop (some s) s.span.stop (dropped.map (·.entry))) :
    Chain ((dropped.map (·.entry)).getLast?.getD s).span.stop s.span.stop
      (dropped.getLast?.map fun last => Cut.mk ⟨s.span.stop, last.entry.span.stop⟩ []).toList := by
  rw [List.getLast?_map]
  cases hlast : dropped.getLast? with
  | none => exact Nat.le_refl _
  | some last =>
    obtain ⟨hstart, hne, -⟩ := h.bounds last.entry (List.mem_map_of_mem (List.mem_of_getLast? hlast))
    exact ⟨Nat.le_refl _, hstart.trans_lt hne, Nat.le_refl _⟩

/-- The cuts lie between the first entry and the last. -/
theorem chain_listCuts (hinner : Fits inner) {f : Fate} (h : someKept (f :: rest) = true)
    (hentries : Entries content stop prev p ((f :: rest).map (·.entry))) :
    Chain ((rest.map (·.entry)).getLast?.getD f.entry).span.stop f.entry.span.start (listCuts inner (f :: rest)) := by
  induction f, rest, h using kept_induction generalizing prev p with
  | ends s text dropped _ hdropped =>
    cases hentries with
    | cons le lt entry found gap more =>
      rw [listCuts_last hdropped]
      exact (chain_entryCuts hinner lt).append (chain_trailing more)
  | keep s text next rest _ hlater ih =>
    cases hentries with
    | cons le lt entry found gap more =>
      rw [listCuts_keep hlater, List.map_cons, List.getLast?_cons]
      exact (chain_entryCuts hinner lt).append ((ih more).widen (more.bounds _ List.mem_cons_self).1 (Nat.le_refl _))
  | drop s next rest _ hlater ih =>
    cases hentries with
    | cons le lt entry found gap more =>
      rw [listCuts_drop hlater, List.map_cons, List.getLast?_cons]
      exact ⟨Nat.le_refl _, lt.trans_le (more.bounds _ List.mem_cons_self).1, ih more⟩

/-- An entry after its cuts. -/
def editedEntry (content : Bytes) (inner : Span → List Cut) (s : Specifier) (text : Bytes) : Bytes :=
  edited content s.span.stop s.span.start (entryCuts inner s text)

/-- Without others the cuts of an entry leave its new text. -/
theorem editedEntry_of_nil (hfound : s.span.text content = s.text) (hnil : text = s.text → inner s.span = []) :
    editedEntry content inner s text = text := by
  unfold editedEntry entryCuts
  split
  · next htext =>
    rw [hnil htext, htext]
    exact hfound
  · simp [edited, Bytes.slice]

/-- An entry that does not stay as it is lies in a cut. -/
theorem exists_cut_of_changed (inner : Span → List Cut) {f : Fate} (h : someKept (f :: rest) = true)
    (hentries : Entries content stop prev p ((f :: rest).map (·.entry))) {g : Fate} (hg : g ∈ f :: rest)
    (hchanged : g.text ≠ some g.entry.text) :
    ∃ c ∈ listCuts inner (f :: rest), c.span.start ≤ g.entry.span.start ∧ g.entry.span.stop ≤ c.span.stop := by
  have hown {s : Specifier} {text : Bytes} (hne : some text ≠ some s.text) : ⟨s.span, text⟩ ∈ entryCuts inner s text := by
    rw [entryCuts, if_neg fun heq => hne (congrArg some heq)]
    exact List.mem_singleton.mpr rfl
  induction f, rest, h using kept_induction generalizing prev p with
  | ends s text dropped _ hdropped =>
    rw [listCuts_last hdropped]
    cases hentries with
    | cons le lt entry found gap more =>
      obtain rfl | hg := List.mem_cons.mp hg
      · exact ⟨_, List.mem_append_left _ (hown hchanged), Nat.le_refl _, Nat.le_refl _⟩
      · have hlast := more.le_last.2 _ (List.mem_map_of_mem hg)
        have hbehind := (more.bounds _ (List.mem_map_of_mem hg)).1
        rw [List.getLast?_map] at hlast
        cases hget : dropped.getLast? with
        | none =>
          rw [List.getLast?_eq_none_iff.mp hget] at hg
          cases hg
        | some last =>
          rw [hget] at hlast
          exact ⟨_, List.mem_append_right _ (List.mem_singleton.mpr rfl), hbehind, hlast⟩
  | keep s text next rest _ hlater ih =>
    rw [listCuts_keep hlater]
    cases hentries with
    | cons le lt entry found gap more =>
      obtain rfl | hg := List.mem_cons.mp hg
      · exact ⟨_, List.mem_append_left _ (hown hchanged), Nat.le_refl _, Nat.le_refl _⟩
      · obtain ⟨c, hc, hin⟩ := ih more hg
        exact ⟨c, List.mem_append_right _ hc, hin⟩
  | drop s next rest _ hlater ih =>
    rw [listCuts_drop hlater]
    cases hentries with
    | cons le lt entry found gap more =>
      obtain rfl | hg := List.mem_cons.mp hg
      · exact ⟨_, List.mem_cons_self, Nat.le_refl _, (more.bounds _ List.mem_cons_self).1⟩
      · obtain ⟨c, hc, hin⟩ := ih more hg
        exact ⟨c, List.mem_cons_of_mem _ hc, hin⟩

/-- Behind the last entry that is kept stands what lies behind the last one of the list. -/
theorem edited_last (hinner : Fits inner) (hdropped : someKept dropped = false)
    (hentries : Entries content stop prev p ((⟨s, some text⟩ :: dropped : List Fate).map (·.entry)))
    (hstop : stop ≤ content.length) :
    edited content stop s.span.start (listCuts inner (⟨s, some text⟩ :: dropped)) = editedEntry content inner s text ++
      content.slice ((dropped.map (·.entry)).getLast?.getD s).span.stop stop := by
  cases hentries with
  | cons le lt entry found gap more =>
    have hwide := (chain_trailing more).widen (Nat.le_refl _) more.last.le
    rw [listCuts_last hdropped, edited_append (chain_entryCuts hinner lt) hwide hstop]
    refine congrArg (editedEntry content inner s text ++ ·) ?_
    rw [List.getLast?_map]
    cases dropped.getLast? with
    | none => rfl
    | some last => simp [edited, Bytes.slice]

theorem edited_keep (hinner : Fits inner) (hlater : someKept (next :: rest) = true)
    (hentries : Entries content stop prev p ((⟨s, some text⟩ :: next :: rest : List Fate).map (·.entry)))
    (hstop : stop ≤ content.length) :
    edited content stop s.span.start (listCuts inner (⟨s, some text⟩ :: next :: rest)) =
      editedEntry content inner s text ++ (content.slice s.span.stop next.entry.span.start ++
        edited content stop next.entry.span.start (listCuts inner (next :: rest))) := by
  cases hentries with
  | cons le lt entry found gap more =>
    have hgap : Chain next.entry.span.start s.span.stop [] := (more.bounds _ List.mem_cons_self).1
    have hrest : Chain stop next.entry.span.start (listCuts inner (next :: rest)) := by
      refine (chain_listCuts hinner hlater more).widen (Nat.le_refl _) ?_
      cases more with
      | cons _ _ _ _ _ more => exact more.last.le
    rw [listCuts_keep hlater, edited_append (chain_entryCuts hinner lt) (hrest.widen hgap (Nat.le_refl _)) hstop]
    exact congrArg (editedEntry content inner s text ++ ·) (edited_append hgap hrest hstop)

theorem edited_drop (hlater : someKept (next :: rest) = true) :
    edited content stop s.span.start (listCuts inner (⟨s, none⟩ :: next :: rest)) =
      edited content stop next.entry.span.start (listCuts inner (next :: rest)) := by
  rw [listCuts_drop hlater]
  simp [edited, Bytes.slice]

/-- New texts are empty or the row type. -/
theorem text_of_mem_listCuts (hinner : Fits inner) {f : Fate} (h : someKept (f :: rest) = true)
    (hkept : ∀ g ∈ f :: rest, ∀ text, g.text = some text → text = g.entry.text ∨ text = rowTypeName) :
    ∀ c ∈ listCuts inner (f :: rest), c.text = [] ∨ c.text = rowTypeName := by
  have hown {s : Specifier} {text : Bytes} (htext : text = s.text ∨ text = rowTypeName) :
      ∀ c ∈ entryCuts inner s text, c.text = [] ∨ c.text = rowTypeName := by
    intro c hc
    unfold entryCuts at hc
    split at hc
    · exact .inr (hinner.text _ c hc)
    · next hne =>
      rw [List.mem_singleton.mp hc]
      exact .inr (htext.resolve_left hne)
  intro c hc
  induction f, rest, h using kept_induction with
  | ends s text dropped _ hdropped =>
    rw [listCuts_last hdropped] at hc
    obtain hc | hc := List.mem_append.mp hc
    · exact hown (hkept _ List.mem_cons_self text rfl) c hc
    · obtain ⟨last, -, rfl⟩ := Option.map_eq_some_iff.mp (Option.mem_toList.mp hc)
      exact .inl rfl
  | keep s text next rest _ hlater ih =>
    rw [listCuts_keep hlater] at hc
    obtain hc | hc := List.mem_append.mp hc
    · exact hown (hkept _ List.mem_cons_self text rfl) c hc
    · exact ih (fun g hg => hkept g (List.mem_cons_of_mem _ hg)) hc
  | drop s next rest _ hlater ih =>
    rw [listCuts_drop hlater] at hc
    obtain rfl | hc := List.mem_cons.mp hc
    · exact .inl rfl
    · exact ih (fun g hg => hkept g (List.mem_cons_of_mem _ hg)) hc

theorem fits_nil : Fits fun _ => [] := ⟨fun _ h => h, fun _ _ hc => absurd hc List.not_mem_nil⟩

/-- The last of some entries is found in its place if they all are. -/
theorem whole_last (hself : s.Whole) (hwhole : ∀ g ∈ dropped, g.entry.Whole) :
    ∀ last ∈ some ((dropped.map (·.entry)).getLast?.getD s), last.Whole := by
  rintro last ⟨⟩
  rw [List.getLast?_map]
  cases hget : dropped.getLast? with
  | none => exact hself
  | some last => exact hwhole last (List.mem_of_getLast? hget)

/-- The entries of an edited list are the ones that are kept. -/
theorem names_edited {f : Fate} (h : someKept (f :: rest) = true)
    (hentries : Entries content stop prev p ((f :: rest).map (·.entry)))
    (hwhole : ∀ g ∈ f :: rest, g.entry.Whole) (hkept : ∀ g ∈ f :: rest, ∀ text, g.text = some text → IsEntry text)
    (hstop : stop ≤ content.length) :
    names (edited content stop f.entry.span.start (listCuts (fun _ => []) (f :: rest))) =
      (f :: rest).filterMap (·.text) := by
  induction f, rest, h using kept_induction generalizing prev p with
  | ends s text dropped _ hdropped =>
    obtain ⟨hself, hwhole⟩ := List.forall_mem_cons.mp hwhole
    have hlast := edited_last fits_nil hdropped hentries hstop
    have hnone : dropped.filterMap (·.text) = [] := by
      rw [someKept, List.any_eq_false] at hdropped
      exact List.filterMap_eq_nil_iff.mpr fun g hg => by simpa using hdropped g hg
    cases hentries with
    | cons le lt entry found gap more =>
      cases more.last with
      | nil le gap =>
        rw [hlast, editedEntry_of_nil found fun _ => rfl, List.filterMap_cons, hnone,
          gap.names_end (whole_last hself hwhole) trivial]
        exact (hkept _ List.mem_cons_self text rfl).names
  | keep s text next rest _ hlater ih =>
    obtain ⟨hself, hwhole⟩ := List.forall_mem_cons.mp hwhole
    have hedited := edited_keep fits_nil hlater hentries hstop
    cases hentries with
    | cons le lt entry found gap more =>
      have hrest := ih more hwhole fun g hg => hkept g (List.mem_cons_of_mem _ hg)
      cases more with
      | cons _ _ _ _ gap _ =>
        have hself : ∀ t ∈ some s, t.Whole := by
          rintro t ⟨⟩
          exact hself
        rw [hedited, editedEntry_of_nil found fun _ => rfl,
          gap.names_between hself (hwhole next List.mem_cons_self) (Option.some_ne_none s), hrest,
          (hkept _ List.mem_cons_self text rfl).names]
        rfl
  | drop s next rest _ hlater ih =>
    obtain ⟨-, hwhole⟩ := List.forall_mem_cons.mp hwhole
    cases hentries with
    | cons le lt entry found gap more =>
      rw [edited_drop hlater]
      exact ih more hwhole fun g hg => hkept g (List.mem_cons_of_mem _ hg)

end Cuts

end Codemod.Release12
