import Codemod.Proofs.Release12.Typings

namespace Codemod.Release12

open Edit Markup Text

section List

variable {content : Bytes} {inner : Span → List Cut} {rest : List Fate} {stop p : Nat} {prev : Option Specifier}

/-- The row type that a list keeps or gets is one of its entries in the end, whatever stands at the others: it is parted
from them by white space and commas. -/
theorem mem_names_edited (hinner : Fits inner) {f : Fate} (h : someKept (f :: rest) = true)
    (hentries : Entries content stop prev p ((f :: rest).map (·.entry))) (hstop : stop ≤ content.length)
    (hdropped : ∀ g ∈ f :: rest, g.text = none → g.entry.Whole)
    (hnew : ∀ g ∈ f :: rest, g.text = some rowTypeName →
      g.entry.Whole ∧ (rowTypeName = g.entry.text → inner g.entry.span = []))
    (hsome : ∃ g ∈ f :: rest, g.text = some rowTypeName) {w : Bytes} (hw : f.entry.Whole → Blank w) :
    rowTypeName ∈ names (w ++ edited content stop f.entry.span.start (listCuts inner (f :: rest))) := by
  have hself {w trail : Bytes} (hw : Blank w) (htrail : Blank trail) : rowTypeName ∈ names (w ++ (rowTypeName ++ trail)) := by
    rw [names_blank_append hw, names_append_blank htrail, isEntry_rowTypeName.names]
    exact List.mem_singleton.mpr rfl
  -- `w` stands between the last separator and the entry, blank where the entry is found in its place
  induction f, rest, h using kept_induction generalizing prev p w with
  | ends s text dropped _ hgone =>
    have hnone : ∀ g ∈ dropped, g.text = none := by
      rw [someKept, List.any_eq_false] at hgone
      exact fun g hg => by simpa using hgone g hg
    have htext : some text = some rowTypeName := by
      obtain ⟨g, hg, hkept⟩ := hsome
      obtain rfl | hg := List.mem_cons.mp hg
      · exact hkept
      · rw [hnone g hg] at hkept
        cases hkept
    obtain ⟨hwhole, hquiet⟩ := hnew _ List.mem_cons_self htext
    obtain rfl := Option.some.inj htext
    have hlast := edited_last hinner hgone hentries hstop
    cases hentries with
    | cons le lt entry found gap more =>
      have hwholeLast := whole_last hwhole fun g hg => hdropped g (List.mem_cons_of_mem _ hg) (hnone g hg)
      cases more.last with
      | nil le gap =>
        rw [hlast, editedEntry_of_nil found hquiet, ← List.append_assoc, gap.names_end hwholeLast trivial]
        simpa using hself (hw hwhole) Blank.nil
  | keep s text next rest _ hlater ih =>
    have hedited := edited_keep hinner hlater hentries hstop
    cases hentries with
    | cons le lt entry found gap more =>
      have hrest := ih more (fun g hg => hdropped g (List.mem_cons_of_mem _ hg)) fun g hg => hnew g (List.mem_cons_of_mem _ hg)
      cases more with
      | cons _ _ _ _ gap _ =>
        obtain ⟨trail, mid, lead, hsplit, htrail, hlead, hmid | ⟨hends, -⟩⟩ := gap.split
        · have hparts (x y : Bytes) : names (w ++ (x ++ (trail ++ mid ++ lead ++ y))) =
              names (w ++ (x ++ trail)) ++ names (lead ++ y) := by
            rw [← hmid.names_append]
            simp only [List.append_assoc]
          rw [hedited, hsplit, hparts, List.mem_append]
          obtain ⟨g, hg, hkept⟩ := hsome
          obtain rfl | hg := List.mem_cons.mp hg
          · obtain ⟨hwhole, hquiet⟩ := hnew _ List.mem_cons_self hkept
            obtain rfl := Option.some.inj hkept
            rw [editedEntry_of_nil found hquiet]
            refine .inl (hself (hw hwhole) (htrail ?_))
            rintro t ⟨⟩
            exact hwhole
          · exact .inr (hrest ⟨g, hg, hkept⟩ hlead)
        · cases hends
  | drop s next rest _ hlater ih =>
    have hblank := hw (hdropped _ List.mem_cons_self rfl)
    have hnext : ∃ g ∈ next :: rest, g.text = some rowTypeName := by
      obtain ⟨g, hg, hkept⟩ := hsome
      obtain rfl | hg := List.mem_cons.mp hg
      · cases hkept
      · exact ⟨g, hg, hkept⟩
    cases hentries with
    | cons le lt entry found gap more =>
      rw [edited_drop hlater]
      exact ih more (fun g hg => hdropped g (List.mem_cons_of_mem _ hg)) (fun g hg => hnew g (List.mem_cons_of_mem _ hg))
        hnext fun _ => hblank

theorem whole_of_old {s : Specifier} (h : rowComponents.contains s.text = true) : s.Whole :=
  (spelling_of_old (List.contains_iff_mem.mp h)).2.2.2

/-- Such an entry of a whole list. -/
theorem mem_names_edited_list (hinner : Fits inner) {imported : Bool} {specs : List Specifier}
    (hentries : Entries content stop none p specs) (hstop : stop ≤ content.length)
    (hquiet : ∀ s ∈ specs, s.text = rowTypeName → inner s.span = [])
    (hsome : ∃ g ∈ fates imported specs, g.text = some rowTypeName) :
    rowTypeName ∈ names (edited content stop p (listCuts inner (fates imported specs))) := by
  have hspecs := map_entry_fates imported specs
  have hdropped : ∀ g ∈ fates imported specs, g.text = none → g.entry.Whole := fun g hg hnone =>
    whole_of_old (old_of_mem_fates hg hnone)
  have hnew : ∀ g ∈ fates imported specs, g.text = some rowTypeName →
      g.entry.Whole ∧ (rowTypeName = g.entry.text → inner g.entry.span = []) := by
    intro g hg htext
    have hentry : g.entry ∈ specs := by
      rw [← hspecs]
      exact List.mem_map_of_mem hg
    refine ⟨?_, fun heq => hquiet _ hentry heq.symm⟩
    obtain heq | ⟨hold, -⟩ := text_of_mem_fates hg htext
    · rw [Specifier.Whole, ← heq]
      decide
    · exact whole_of_old hold
  have hkept : someKept (fates imported specs) = true := by
    obtain ⟨g, hg, htext⟩ := hsome
    exact List.any_eq_true.mpr ⟨g, hg, by rw [htext]; rfl⟩
  cases hfates : fates imported specs with
  | nil =>
    rw [hfates] at hkept
    cases hkept
  | cons f rest =>
    rw [hfates] at hspecs hdropped hnew hsome hkept
    rw [← hspecs] at hentries
    have hread {w : Bytes} := mem_names_edited (w := w) hinner hkept hentries hstop hdropped hnew hsome
    have hchain := chain_listCuts hinner hkept hentries
    cases hentries with
    | cons le lt entry found gap more =>
      have hgap : Chain f.entry.span.start p [] := le
      have happend := edited_append hgap (hchain.widen (Nat.le_refl _) more.last.le) hstop
      rw [List.nil_append] at happend
      rw [happend]
      obtain ⟨trail, mid, lead, hsplit, htrail, hlead, hmid | ⟨-, hmid⟩⟩ := gap.split
      · have hfront : edited content f.entry.span.start p [] = trail ++ mid ++ lead := hsplit
        rw [hfront, List.append_assoc, hmid.names_append]
        exact List.mem_append_right _ (hread hlead)
      · have hfront : edited content f.entry.span.start p [] = trail ++ lead := by
          rw [hmid, List.append_nil] at hsplit
          exact hsplit
        rw [hfront]
        exact hread fun hwhole => (htrail nofun).append (hlead hwhole)

end List

section Module

variable {content : Bytes} {ts : List Cut} {d : ImportDeclaration} {t : ImportText} {ending : Bytes}

/-- The name of the library and the typings keep off each other. -/
theorem clear_library (hts : ∀ c ∈ ts, Typing content c) {p : Nat} (h : bytes "igniteui-angular" <+: content.drop p) :
    content.slice p (p + 16) = bytes "igniteui-angular" ∧ Clear ts p ∧ Clear ts (p + 16) ∧ within ts ⟨p, p + 16⟩ = [] := by
  have hslice : content.slice p (p + 16) = bytes "igniteui-angular" := Bytes.slice_of_prefix_drop h
  have hfirst : content[p]? = some ('i' : Char).toUInt8 := by
    rw [← getElem?_slice (Nat.le_refl _) (b := p + 16) (by omega), hslice, Nat.sub_self]
    rfl
  have hdash : content[p + 8]? = some ('-' : Char).toUInt8 := by
    rw [← getElem?_slice (a := p) (b := p + 16) (by omega) (by omega), hslice, Nat.add_sub_cancel_left]
    rfl
  have hcapital : ('I' : Char).toUInt8 ∉ content.slice p (p + 16) := by
    rw [hslice]
    decide
  have hclear := clear_of_word hts hfirst hdash rfl (Nat.le_refl 8)
  exact ⟨hslice, hclear, clear_of_not_mem hts hclear (Nat.le_add_right _ 16) hcapital, within_eq_nil_of_not_mem hts hcapital⟩

/-- The name of the library is in the module of a declaration after the typings in it have been replaced. -/
theorem edited_module (hts : ∀ c ∈ ts, Typing content c) (hchain : Chain content.length 0 ts)
    (h : Declared content d t ending) :
    let m := edited content (t.moduleSpan d.span.start).stop (t.moduleSpan d.span.start).start
      (within ts (t.moduleSpan d.span.start))
    m.contains "igniteui-angular" = true ∧ m ≠ [] ∧ ∀ b ∈ m, isQuote b = false := by
  obtain ⟨-, -, -, hle, hlt, hlength⟩ := h.order
  have hmodule := h.parts.2.2.2.1
  obtain ⟨u, v, hlibrary⟩ := (contains_iff _ _).mp h.library
  have hthere : u ++ bytes "igniteui-angular" <+: content.drop (t.moduleSpan d.span.start).start := by
    refine (List.prefix_append _ v).trans ?_
    rw [hlibrary, ← hmodule, Bytes.slice, List.drop_take]
    exact List.take_prefix _ _
  have hstop : (t.moduleSpan d.span.start).start + u.length + 16 ≤ (t.moduleSpan d.span.start).stop := by
    have hmoduleStop : (t.moduleSpan d.span.start).stop = (t.moduleSpan d.span.start).start + t.module.length := rfl
    have hlong : (bytes "igniteui-angular").length = 16 := rfl
    rw [hmoduleStop, ← hlibrary]
    simp only [List.length_append, hlong]
    omega
  obtain ⟨hslice, hstart, hend, hnone⟩ := clear_library hts (prefix_drop_add hthere)
  have hquote : ∀ b ∈ content.slice (t.moduleSpan d.span.start).start (t.moduleSpan d.span.start).stop, isQuote b = false := by
    rw [hmodule]
    exact h.valid.module.2
  generalize t.moduleSpan d.span.start = span at *
  have hfront := chain_within (a := span.start) (b := span.start + u.length) hchain (Nat.le_add_right _ _)
  have hback := chain_within hchain hstop
  have hmiddle : Chain (span.start + u.length + 16) (span.start + u.length) [] := Nat.le_add_right _ 16
  obtain ⟨front, back, hparts⟩ : ∃ front back,
      edited content span.stop span.start (within ts span) = front ++ (bytes "igniteui-angular" ++ back) := by
    refine ⟨edited content (span.start + u.length) span.start (within ts ⟨span.start, span.start + u.length⟩),
      edited content span.stop (span.start + u.length + 16) (within ts ⟨span.start + u.length + 16, span.stop⟩), ?_⟩
    have hfirst := within_split (a := span.start) (b := span.stop) hchain (Nat.le_add_right _ u.length) (by omega) hstart
    have hlater := within_split (a := span.start + u.length) hchain (Nat.le_add_right _ 16) hstop hend
    rw [show within ts span = _ from hfirst, hlater, hnone, edited_append hfront (hmiddle.append hback) (by omega),
      edited_append hmiddle hback (by omega), edited, hslice]
  refine ⟨(contains_iff _ _).mpr ⟨front, back, ?_⟩, ?_, fun b hb => ?_⟩
  · rw [hparts, List.append_assoc]
  · rw [hparts]
    simp [bytes]
  · obtain hb | ⟨c, hc, hb⟩ := mem_edited (chain_within hchain hle) (by omega) hb
    · exact hquote b hb
    · have hname : ∀ b ∈ rowTypeName, isQuote b = false := by decide
      rw [(hts c (mem_within.mp hc).1).text] at hb
      exact hname b hb

end Module

theorem exists_fate_of_mem (imported : Bool) {specs : List Specifier} (h : ∃ s ∈ specs, s.text = rowTypeName) :
    ∃ g ∈ fates imported specs, g.text = some rowTypeName := by
  induction specs generalizing imported with
  | nil =>
    obtain ⟨s, hs, -⟩ := h
    cases hs
  | cons s rest ih =>
    obtain ⟨r, hr, htext⟩ := h
    obtain rfl | hr := List.mem_cons.mp hr
    · refine ⟨_, List.mem_cons_self, ?_⟩
      rw [htext, rowTypeName_not_old]
      rfl
    · obtain ⟨g, hg, hkept⟩ := ih (imported || rowComponents.contains s.text) ⟨r, hr, htext⟩
      exact ⟨g, List.mem_cons_of_mem _ hg, hkept⟩

/-- Where the row type is not imported yet, the first old name makes room for it. -/
theorem exists_fate_of_old {specs : List Specifier} (h : specs.any (rowComponents.contains ·.text) = true) :
    ∃ g ∈ fates false specs, g.text = some rowTypeName := by
  induction specs with
  | nil => cases h
  | cons s rest ih =>
    rw [fates]
    cases hold : rowComponents.contains s.text with
    | true => exact ⟨_, List.mem_cons_self, rfl⟩
    | false =>
      rw [List.any_cons, hold, Bool.false_or] at h
      obtain ⟨g, hg, hkept⟩ := ih h
      exact ⟨g, List.mem_cons_of_mem _ hg, hkept⟩

/-- The texts in which an import of the library stands that lists the row type. -/
def ListsRowType (s : Bytes) : Prop :=
  ∃ (front behind : Bytes) (t : ImportText), s = front ++ (t.text ++ behind) ∧ t.Valid ∧
    t.module.contains "igniteui-angular" = true ∧ rowTypeName ∈ names t.list

theorem ListsRowType.widen {s : Bytes} (h : ListsRowType s) (front behind : Bytes) : ListsRowType (front ++ (s ++ behind)) := by
  obtain ⟨front', behind', t, rfl, ht⟩ := h
  exact ⟨front ++ front', behind' ++ behind, t, by simp only [List.append_assoc], ht⟩

theorem exists_import_of_listsRowType {s : Bytes} (h : ListsRowType s) :
    ∃ p d, importFrom? s p = some d ∧ rowTypeName ∈ d.names := by
  obtain ⟨front, behind, t, rfl, hvalid, hlibrary, hmem⟩ := h
  have hdrop : (front ++ (t.text ++ behind)).drop front.length = t.text ++ behind := List.drop_left
  have hthere : t.text <+: (front ++ (t.text ++ behind)).drop front.length := by
    rw [hdrop]
    exact List.prefix_append _ _
  obtain ⟨hlist, hmodule⟩ := text_matched hthere behind
  have hread : importFrom? (front ++ (t.text ++ behind)) front.length =
      some ⟨⟨front.length, declarationStop (t.matched front.length behind).next⟩,
        specifiersFrom (t.matched front.length behind).list.start (Bytes.splitOn comma t.list)⟩ := by
    rw [importFrom?, hdrop, hvalid.importAt?, Option.bind_some, declaration?, hmodule, if_pos hlibrary, specifiers_eq, hlist]
    rfl
  refine ⟨_, _, hread, ?_⟩
  rw [ImportDeclaration.names, names_specifiersFrom]
  exact hmem

section Result

variable {content : Bytes} {ts : List Cut}

/-- A declaration that keeps or gets the row type lists it in the end. -/
theorem listsRowType_declaration (hts : ∀ c ∈ ts, Typing content c) (hchain : Chain content.length 0 ts)
    {d : ImportDeclaration} {t : ImportText} {ending : Bytes} (h : Declared content d t ending) {imported : Bool}
    (hsome : ∃ g ∈ fates imported d.specifiers, g.text = some rowTypeName) :
    ListsRowType (edited content d.span.stop d.span.start (declarationCuts (within ts) imported d)) := by
  have hinner := fits_within hts hchain
  have horder := h.order
  have hgoes : d.goes imported = false := by
    obtain ⟨g, hg, htext⟩ := hsome
    have hkept : someKept (fates imported d.specifiers) = true :=
      List.any_eq_true.mpr ⟨g, hg, by rw [htext]; rfl⟩
    rw [ImportDeclaration.goes, hkept, Bool.not_true, Bool.and_false]
  have hquiet : ∀ s ∈ d.specifiers, s.text = rowTypeName → within ts s.span = [] := by
    intro s hs htext
    refine within_eq_nil_of_not_mem hts ?_
    rw [← Span.text, h.entries.found s hs, htext]
    decide
  obtain ⟨hlibrary, hmodule⟩ := edited_module hts hchain h
  have hlist := mem_names_edited_list hinner h.entries (by omega) hquiet hsome
  rw [edited_declaration hinner h hgoes (by rw [within_module hts hchain h]; exact chain_within hchain horder.2.2.2.1),
    within_module hts hchain h]
  exact ⟨[], ending, _, rfl, h.valid.edit (brace_not_mem_edited hinner h hgoes) hmodule, hlibrary, hlist⟩

/-- One of the declarations lists the row type in the end, if one lists it or an old name at the start. -/
theorem listsRowType_edited (hts : ∀ c ∈ ts, Typing content c) (hchain : Chain content.length 0 ts) {imported : Bool}
    {ds : List ImportDeclaration} {p : Nat} (h : Succession content p ds)
    (hlisted : (∃ d ∈ ds, rowTypeName ∈ d.names) ∨
      imported = false ∧ ∃ d ∈ ds, d.specifiers.any (rowComponents.contains ·.text) = true) :
    ListsRowType (edited content content.length p (fileCuts content (within ts) imported p ds)) := by
  induction ds generalizing imported p with
  | nil => simp at hlisted
  | cons d rest ih =>
    rw [edited_fileCuts_cons (fits_within hts hchain) imported h]
    obtain ⟨hp, ⟨t, ending, hd⟩, hrest⟩ := h
    -- a declaration without the row type has neither listed it nor an old name that could have become it
    by_cases hhere : ∃ g ∈ fates imported d.specifiers, g.text = some rowTypeName
    · exact (listsRowType_declaration hts hchain hd hhere).widen _ _
    · have hlater : (∃ d ∈ rest, rowTypeName ∈ d.names) ∨
          d.imports imported = false ∧ ∃ d ∈ rest, d.specifiers.any (rowComponents.contains ·.text) = true := by
        obtain ⟨e, he, hmem⟩ | ⟨rfl, e, he, hold⟩ := hlisted
        · obtain rfl | he := List.mem_cons.mp he
          · exact absurd (exists_fate_of_mem _ (by simpa [ImportDeclaration.names] using hmem)) hhere
          · exact .inl ⟨e, he, hmem⟩
        · have hnone : d.specifiers.any (rowComponents.contains ·.text) = false := by
            by_contra hany
            exact hhere (exists_fate_of_old (by simpa using hany))
          obtain rfl | he := List.mem_cons.mp he
          · rw [hnone] at hold
            cases hold
          · exact .inr ⟨by rw [ImportDeclaration.imports, hnone]; rfl, e, he, hold⟩
      have hfound := (ih hrest hlater).widen (edited content d.span.start p (within ts ⟨p, d.span.start⟩) ++
        edited content d.span.stop d.span.start (declarationCuts (within ts) imported d)) []
      rwa [List.append_nil, List.append_assoc] at hfound

/-- Where the changes of the typings apply after those of the imports, both are cuts of the content. -/
theorem applyChanges_replaceRowTypes {result : Bytes} (hne : libraryImports content ≠ [])
    (h : applyChanges content (replaceRowTypes content) = .ok result) :
    result = edited content content.length 0 (fileCuts content (within (typingCuts content))
      ((libraryImports content).any (·.names.contains rowTypeName)) 0 (libraryImports content)) := by
  have hts : ∀ c ∈ typingCuts content, Typing content c := fun c hc => typing_of_mem hc
  have hchain := chain_typingCuts content
  have hsuccession := succession_libraryImports content
  have hfirst := importChanges_perm content
  have hperm := importEdits_perm (within (typingCuts content))
    ((libraryImports content).any (·.names.contains rowTypeName)) 0 hsuccession.found
  rw [replaceRowTypes_eq, if_neg hne, ← typingCuts_changes] at h
  -- the row type begins with another letter than the old names, so no import edit finds its text after a typing in it
  have hbyte : ∀ c ∈ typingCuts content, c.text ≠ [] ∧ c.text.head? ≠ content[c.span.start]? := by
    intro c hc
    rw [(hts c hc).text, (hts c hc).first]
    decide
  have hapart := apart_of_applyChanges (chain_fileCuts fits_nil _ hsuccession) hfirst hbyte h
  rw [← within_file hts hchain hsuccession (Nat.zero_le _) hapart, within_all hchain] at hperm
  have hcuts := applyChanges_cuts (chain_fileCuts (fits_within hts hchain) _ hsuccession) hperm
  exact Except.ok.inj (h.symm.trans hcuts)

end Result

/-- A file whose imports of the library list the row type or a name that it replaces imports it in the end, whenever the
changes of the imports and the typings apply together. -/
theorem row_type_imported {content result : Bytes}
    (hlisted : ∃ d ∈ libraryImports content, ∃ name ∈ d.names, name = rowTypeName ∨ name ∈ rowComponents)
    (happly : applyChanges content (replaceRowTypes content) = .ok result) :
    ∃ p d, importFrom? result p = some d ∧ rowTypeName ∈ d.names := by
  obtain ⟨d, hd, name, hname, hlisted⟩ := hlisted
  rw [applyChanges_replaceRowTypes (List.ne_nil_of_mem hd) happly]
  refine exists_import_of_listsRowType (listsRowType_edited (fun c hc => typing_of_mem hc) (chain_typingCuts content)
    (succession_libraryImports content) ?_)
  cases himported : (libraryImports content).any (·.names.contains rowTypeName) with
  | true =>
    obtain ⟨e, he, hmem⟩ := List.any_eq_true.mp himported
    exact .inl ⟨e, he, List.contains_iff_mem.mp hmem⟩
  | false =>
    obtain rfl | hold := hlisted
    · exact .inl ⟨d, hd, hname⟩
    · obtain ⟨s, hs, rfl⟩ := List.mem_map.mp hname
      exact .inr ⟨rfl, d, hd, List.any_eq_true.mpr ⟨s, hs, List.contains_iff_mem.mpr hold⟩⟩

theorem row_type_imported_plain :
    let content := bytes "import \x7b IgxGridRowComponent \x7d from 'igniteui-angular';\nlet x: IgxGridRowComponent;\n"
    let result := bytes "import \x7b RowType \x7d from 'igniteui-angular';\nlet x: RowType;\n"
    applyChanges content (replaceRowTypes content) = .ok result ∧
      ∃ p d, importFrom? result p = some d ∧ rowTypeName ∈ d.names := by
  intro content result
  let cuts : List Cut := [⟨⟨9, 28⟩, rowTypeName⟩, ⟨⟨63, 82⟩, rowTypeName⟩]
  obtain ⟨hlisted, hcuts, hlength, hresult⟩ :
      (∃ d ∈ libraryImports content, ∃ name ∈ d.names, name = rowTypeName ∨ name ∈ rowComponents) ∧
        replaceRowTypes content = cuts.map (Cut.change content) ∧ content.length = 84 ∧
        edited content 84 0 cuts = result := by
    unfold content result
    repeat rw [bytes_ofList]
    decide +kernel
  have hchain : Chain content.length 0 cuts := by
    rw [hlength]
    simp [Chain, cuts]
  have happly := applyChanges_cuts hchain (List.Perm.of_eq hcuts)
  rw [hlength, hresult] at happly
  exact ⟨happly, row_type_imported hlisted happly⟩

/-- A class of the same name from another module, in a file that imports something else from the library. -/
def localRows : Bytes :=
  "import \x7b IgxGridRowComponent \x7d from './local';\nimport \x7b IgxGridComponent \x7d from 'igniteui-angular';\nlet x: IgxGridRowComponent;\n"

/-- The same file with the row type in its type position. -/
def localRowType : Bytes :=
  "import \x7b IgxGridRowComponent \x7d from './local';\nimport \x7b IgxGridComponent \x7d from 'igniteui-angular';\nlet x: RowType;\n"

/-- Its typing becomes the row type all the same, and no import of the library lists that. -/
theorem row_type_missing : applyChanges localRows (replaceRowTypes localRows) = .ok localRowType ∧
    (typingEdits localRows).length = 1 ∧ (libraryImports localRowType).map (·.names) = [[bytes "IgxGridComponent"]] := by
  let cuts : List Cut := [⟨⟨107, 126⟩, rowTypeName⟩]
  obtain ⟨hcuts, hlength, hresult, hlisted⟩ :
      replaceRowTypes localRows = cuts.map (Cut.change localRows) ∧ localRows.length = 128 ∧
        edited localRows 128 0 cuts = localRowType ∧ (typingEdits localRows).length = 1 ∧
          (libraryImports localRowType).map (·.names) = [[bytes "IgxGridComponent"]] := by
    unfold localRows localRowType
    repeat rw [bytes_ofList]
    decide +kernel
  have hchain : Chain localRows.length 0 cuts := by
    rw [hlength]
    simp [Chain, cuts]
  have happly := applyChanges_cuts hchain (List.Perm.of_eq hcuts)
  rw [hlength, hresult] at happly
  exact ⟨happly, hlisted⟩

end Codemod.Release12
