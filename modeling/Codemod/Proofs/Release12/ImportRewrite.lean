import Codemod.Proofs.Release12.ImportEdits

namespace Codemod.Release12

open Edit Markup Text

namespace ImportDeclaration

/-- The texts of its entries. -/
def names (d : ImportDeclaration) : List Bytes := d.specifiers.map (·.text)

/-- Whether none of its entries stays. -/
def goes (imported : Bool) (d : ImportDeclaration) : Bool :=
  !d.specifiers.isEmpty && !someKept (fates imported d.specifiers)

/-- Whether the row type is imported behind it. -/
def imports (imported : Bool) (d : ImportDeclaration) : Bool := imported || d.specifiers.any (rowComponents.contains ·.text)

/-- Where its last entry ends. -/
def lastStop (d : ImportDeclaration) : Nat := d.specifiers.getLast?.elim d.span.start (·.span.stop)

end ImportDeclaration

/-- The cuts of a declaration, with further ones inside its entries and behind them. -/
def declarationCuts (inner : Span → List Cut) (imported : Bool) (d : ImportDeclaration) : List Cut :=
  if d.goes imported then [⟨d.span, []⟩]
  else listCuts inner (fates imported d.specifiers) ++ inner ⟨d.lastStop, d.span.stop⟩

/-- The cuts of a content from an offset on. -/
def fileCuts (content : Bytes) (inner : Span → List Cut) : Bool → Nat → List ImportDeclaration → List Cut
  | _, p, [] => inner ⟨p, content.length⟩
  | imported, p, d :: rest => inner ⟨p, d.span.start⟩ ++ declarationCuts inner imported d ++
      fileCuts content inner (d.imports imported) d.span.stop rest

/-- Those of them that are no edits of the imports. -/
def fileInner (content : Bytes) (inner : Span → List Cut) : Bool → Nat → List ImportDeclaration → List Cut
  | _, p, [] => inner ⟨p, content.length⟩
  | imported, p, d :: rest => inner ⟨p, d.span.start⟩ ++
      (if d.goes imported then [] else innerCuts inner (fates imported d.specifiers) ++ inner ⟨d.lastStop, d.span.stop⟩) ++
      fileInner content inner (d.imports imported) d.span.stop rest

section Perm

variable {content : Bytes} {inner : Span → List Cut} {imported : Bool} {d : ImportDeclaration}

theorem goes_marks : d.goes imported =
    (!((fates imported d.specifiers).map Fate.mark).isEmpty && ((fates imported d.specifiers).map Fate.mark).all (·.2)) := by
  have hempty : ((fates imported d.specifiers).map Fate.mark).isEmpty = d.specifiers.isEmpty := by
    cases d.specifiers <;> rfl
  rw [ImportDeclaration.goes, hempty, ← any_kept_marks, List.not_any_eq_all_not]
  simp

/-- The edits of a declaration. -/
def declarationEdits (content : Bytes) (imported : Bool) (d : ImportDeclaration) : List Change :=
  (fates imported d.specifiers).filterMap Fate.replacement? ++
    if d.goes imported then [.deleteSpan content d.span]
    else removeSpecifiers content ((fates imported d.specifiers).map Fate.mark)

theorem importEdits_cons (rest : List ImportDeclaration) : importEdits content imported (d :: rest) =
    declarationEdits content imported d ++ importEdits content (d.imports imported) rest := by
  rw [importEdits, markSpecifiers_eq, declarationEdits, goes_marks]
  rfl

/-- Entries either all go away, or one of them stays, unless there are none. -/
theorem goes_cases (imported : Bool) (d : ImportDeclaration) :
    d.goes imported = true ∧ someKept (fates imported d.specifiers) = false ∧ d.specifiers ≠ [] ∨
      d.goes imported = false ∧ (d.specifiers = [] ∨
        ∃ f rest, fates imported d.specifiers = f :: rest ∧ someKept (f :: rest) = true) := by
  rw [ImportDeclaration.goes]
  cases hspecs : d.specifiers with
  | nil => exact .inr ⟨rfl, .inl rfl⟩
  | cons s rest =>
    cases hkept : someKept (fates imported (s :: rest)) with
    | false => exact .inl ⟨rfl, rfl, List.cons_ne_nil _ _⟩
    | true => exact .inr ⟨rfl, .inr ⟨_, _, rfl, hkept⟩⟩

theorem declarationEdits_perm (inner : Span → List Cut) (imported : Bool)
    (hthere : ∀ s ∈ d.specifiers, s.span.text content = s.text) :
    (declarationEdits content imported d ++ (if d.goes imported then [] else
      innerCuts inner (fates imported d.specifiers) ++ inner ⟨d.lastStop, d.span.stop⟩).map (Cut.change content)).Perm
        ((declarationCuts inner imported d).map (Cut.change content)) := by
  unfold declarationEdits declarationCuts
  obtain ⟨hgoes, hdropped, -⟩ | ⟨hgoes, hstays⟩ := goes_cases imported d
  · rw [hgoes, if_pos rfl, if_pos rfl, if_pos rfl, (dropped_quiet inner hdropped).1]
    exact List.Perm.refl _
  · rw [hgoes, if_neg Bool.false_ne_true, if_neg Bool.false_ne_true, if_neg Bool.false_ne_true, List.map_append,
      List.map_append, ← List.append_assoc]
    refine List.Perm.append_right _ ?_
    obtain hnil | ⟨f, rest, hfates, hkept⟩ := hstays
    · rw [hnil]
      exact List.Perm.refl _
    · have hentry : ∀ g ∈ f :: rest, g.entry.span.text content = g.entry.text := by
        rw [← hfates]
        intro g hg
        refine hthere g.entry ?_
        rw [← map_entry_fates imported d.specifiers]
        exact List.mem_map_of_mem hg
      rw [hfates]
      exact listCuts_perm hkept hentry

/-- The edits of the imports and the further changes are the cuts of the content. -/
theorem importEdits_perm (inner : Span → List Cut) (imported : Bool) (p : Nat) {ds : List ImportDeclaration}
    (hthere : ∀ d ∈ ds, ∀ s ∈ d.specifiers, s.span.text content = s.text) :
    (importEdits content imported ds ++ (fileInner content inner imported p ds).map (Cut.change content)).Perm
      ((fileCuts content inner imported p ds).map (Cut.change content)) := by
  rw [List.perm_iff_count]
  intro c
  induction ds generalizing imported p with
  | nil => rfl
  | cons d rest ih =>
    obtain ⟨hself, hthere⟩ := List.forall_mem_cons.mp hthere
    have hrest := ih (d.imports imported) d.span.stop hthere
    have hown := (declarationEdits_perm inner imported hself).count_eq c
    rw [importEdits_cons, fileInner, fileCuts]
    simp only [List.map_append, List.count_append] at hown hrest ⊢
    omega

end Perm

/-- A declaration lies where it was found, with its entries. -/
theorem Declared.entries {content : Bytes} {d : ImportDeclaration} {t : ImportText} {ending : Bytes}
    (h : Declared content d t ending) :
    Entries content (t.listSpan d.span.start).stop none (t.listSpan d.span.start).start d.specifiers := by
  have hthere : t.head ++ t.list <+: content.drop d.span.start :=
    (((((List.prefix_append _ _).trans (List.prefix_append _ _)).trans (List.prefix_append _ _)).trans
      (List.prefix_append t.text ending))).trans h.there
  have hlist := prefix_drop_add hthere
  rw [h.specifiers]
  have hpend : Pending none [] := ⟨by simp, .inl ⟨rfl, rfl⟩⟩
  exact entries_of_list content t.list hpend hlist

theorem names_specifiersFrom (text : Bytes) (pos : Nat) :
    (specifiersFrom pos (Bytes.splitOn comma text)).map (·.text) = names text := by
  have hone {u : Bytes} (hu : comma ∉ u) (pos : Nat) : (specifier? pos u).toList.map (·.text) = names u := by
    rw [names_of_not_mem hu, specifier?]
    cases htrim : trimBytes u <;> rfl
  induction text using comma_induction generalizing pos with
  | one u hu =>
    rw [Bytes.splitOn_of_not_mem hu, specifiersFrom, specifiersFrom, List.append_nil, hone hu]
  | more u v hu ih =>
    rw [Bytes.splitOn_append, Bytes.splitOn_of_not_mem hu, List.singleton_append, specifiersFrom, List.map_append, ih,
      hone hu, names_comma]

section Chain

variable {content : Bytes} {inner : Span → List Cut} {imported : Bool} {d : ImportDeclaration} {t : ImportText}
  {ending : Bytes}

/-- The cuts of a list that keeps an entry, or has none. -/
theorem chain_fates (hinner : Fits inner) {stop p : Nat} {specs : List Specifier}
    (hentries : Entries content stop none p specs)
    (hstays : specs = [] ∨ ∃ f rest, fates imported specs = f :: rest ∧ someKept (f :: rest) = true) :
    Chain (specs.getLast?.elim p (·.span.stop)) p (listCuts inner (fates imported specs)) ∧
      specs.getLast?.elim p (·.span.stop) ≤ stop := by
  obtain rfl | ⟨f, rest, hfates, hkept⟩ := hstays
  · exact ⟨Nat.le_refl _, hentries.le⟩
  · have hspecs := map_entry_fates imported specs
    rw [hfates] at hspecs
    rw [hfates, ← hspecs, List.map_cons, List.getLast?_cons, Option.elim_some]
    rw [← hspecs] at hentries
    cases hentries with
    | cons le lt entry found gap more =>
      exact ⟨(chain_listCuts hinner hkept (.cons le lt entry found gap more)).widen le (Nat.le_refl _), more.last.le⟩

theorem slice_part {s front part : Bytes} {p : Nat} (h : front ++ part <+: s.drop p) :
    s.slice (p + front.length) (p + front.length + part.length) = part :=
  Bytes.slice_of_prefix_drop (prefix_drop_add h)

/-- How the parts of a declaration lie in the content. -/
theorem Declared.parts (h : Declared content d t ending) :
    content.slice d.span.start (t.listSpan d.span.start).start = t.head ∧
      content.slice (t.listSpan d.span.start).start (t.listSpan d.span.start).stop = t.list ∧
      content.slice (t.listSpan d.span.start).stop (t.moduleSpan d.span.start).start = t.bridge ∧
      content.slice (t.moduleSpan d.span.start).start (t.moduleSpan d.span.start).stop = t.module ∧
      content.slice (t.moduleSpan d.span.start).stop d.span.stop = [t.closes] ++ ending := by
  have hall : t.head ++ t.list ++ t.bridge ++ t.module ++ ([t.closes] ++ ending) <+: content.drop d.span.start := by
    have hthere := h.there
    rwa [ImportText.text, List.append_assoc _ [t.closes]] at hthere
  have hmodule := (List.prefix_append _ _).trans hall
  have hbridge := (List.prefix_append _ _).trans hmodule
  have hlist := (List.prefix_append _ _).trans hbridge
  have hbridge := slice_part hbridge
  have hmodule := slice_part hmodule
  have hrest := slice_part hall
  have hstop := h.stop
  rw [ImportText.text] at hstop
  simp only [List.length_append, ← Nat.add_assoc] at hbridge hmodule hrest hstop
  rw [hstop]
  exact ⟨Bytes.slice_of_prefix_drop ((List.prefix_append _ _).trans hlist), slice_part hlist, hbridge, hmodule, hrest⟩

/-- The order of the parts. -/
theorem Declared.order (h : Declared content d t ending) :
    d.span.start ≤ (t.listSpan d.span.start).start ∧
      (t.listSpan d.span.start).start ≤ (t.listSpan d.span.start).stop ∧
      (t.listSpan d.span.start).stop ≤ (t.moduleSpan d.span.start).start ∧
      (t.moduleSpan d.span.start).start ≤ (t.moduleSpan d.span.start).stop ∧
      (t.moduleSpan d.span.start).stop < d.span.stop ∧ d.span.stop ≤ content.length := by
  have hlength := h.there.length_le
  have hpos : 0 < t.text.length := List.length_pos_iff.mpr fun hnil => by
    have := t.head?_text
    rw [hnil] at this
    cases this
  rw [List.length_drop] at hlength
  simp only [h.stop, ImportText.moduleSpan, ImportText.listSpan, ImportText.text, List.length_append,
    List.length_singleton] at hlength hpos ⊢
  omega

theorem stays_of_goes (h : d.goes imported = false) : d.specifiers = [] ∨
    ∃ f rest, fates imported d.specifiers = f :: rest ∧ someKept (f :: rest) = true := by
  obtain ⟨hgoes, -⟩ | ⟨-, hstays⟩ := goes_cases imported d
  · exact absurd (h.symm.trans hgoes) Bool.false_ne_true
  · exact hstays

theorem chain_declarationCuts (hinner : Fits inner) (h : Declared content d t ending) (imported : Bool) :
    Chain d.span.stop d.span.start (declarationCuts inner imported d) := by
  obtain ⟨hhead, hlist, hbridge, hmodule, hlt, -⟩ := h.order
  unfold declarationCuts
  cases hgoes : d.goes imported with
  | true => exact ⟨Nat.le_refl _, by dsimp only; omega, Nat.le_refl _⟩
  | false =>
    obtain ⟨hchain, hle⟩ := chain_fates hinner h.entries (stays_of_goes hgoes)
    rw [if_neg Bool.false_ne_true, ImportDeclaration.lastStop]
    cases hlast : d.specifiers.getLast? with
    | none =>
      rw [List.getLast?_eq_none_iff.mp hlast]
      exact hinner.chain ⟨d.span.start, d.span.stop⟩ (by dsimp only; omega)
    | some last =>
      rw [hlast, Option.elim_some] at hchain hle
      exact (hchain.widen hhead (Nat.le_refl _)).append (hinner.chain ⟨last.span.stop, d.span.stop⟩ (by dsimp only; omega))

/-- A declaration that stays: only its list changes, and its module where further cuts lie in it. -/
theorem edited_declaration (hinner : Fits inner) (h : Declared content d t ending) (hgoes : d.goes imported = false)
    (hmodule : Chain (t.moduleSpan d.span.start).stop (t.moduleSpan d.span.start).start (inner ⟨d.lastStop, d.span.stop⟩)) :
    edited content d.span.stop d.span.start (declarationCuts inner imported d) = { t with
      list := edited content (t.listSpan d.span.start).stop (t.listSpan d.span.start).start
        (listCuts inner (fates imported d.specifiers)),
      module := edited content (t.moduleSpan d.span.start).stop (t.moduleSpan d.span.start).start
        (inner ⟨d.lastStop, d.span.stop⟩) : ImportText }.text ++ ending := by
  obtain ⟨hhead, hlist, hbridge, hmod, hlt, hlength⟩ := h.order
  obtain ⟨htextHead, -, htextBridge, -, htextRest⟩ := h.parts
  have hcuts : Chain (t.listSpan d.span.start).stop (t.listSpan d.span.start).start
      (listCuts inner (fates imported d.specifiers)) := by
    obtain ⟨hchain, hle⟩ := chain_fates hinner h.entries (stays_of_goes hgoes)
    exact hchain.widen (Nat.le_refl _) hle
  have hbehind : Chain d.span.stop (t.moduleSpan d.span.start).stop [] := hlt.le
  have hgap : Chain (t.moduleSpan d.span.start).start (t.listSpan d.span.start).stop [] := hbridge
  have hfront : Chain (t.listSpan d.span.start).start d.span.start [] := hhead
  have hmodules := hmodule.append hbehind
  have hbridges := hgap.append hmodules
  have hlists := hcuts.append hbridges
  have hparts : declarationCuts inner imported d = [] ++ (listCuts inner (fates imported d.specifiers) ++
      ([] ++ (inner ⟨d.lastStop, d.span.stop⟩ ++ []))) := by
    rw [declarationCuts, hgoes, if_neg Bool.false_ne_true]
    simp
  rw [hparts, edited_append hfront hlists hlength, edited_append hcuts hbridges hlength,
    edited_append hgap hmodules hlength, edited_append hmodule hbehind hlength]
  simp only [edited, htextHead, htextBridge, htextRest]
  simp only [ImportText.text, ImportText.head, ImportText.bridge, List.append_assoc]

/-- Declarations that stand one behind another from an offset on. -/
def Succession (content : Bytes) : Nat → List ImportDeclaration → Prop
  | p, [] => p ≤ content.length
  | p, d :: rest => p ≤ d.span.start ∧ (∃ t ending, Declared content d t ending) ∧ Succession content d.span.stop rest

theorem chain_fileCuts (hinner : Fits inner) (imported : Bool) {ds : List ImportDeclaration} {p : Nat}
    (h : Succession content p ds) :
    Chain content.length p (fileCuts content inner imported p ds) := by
  induction ds generalizing imported p with
  | nil => exact hinner.chain ⟨p, content.length⟩ h
  | cons d rest ih =>
    obtain ⟨hp, ⟨t, ending, hd⟩, hrest⟩ := h
    exact ((hinner.chain ⟨p, d.span.start⟩ hp).append (chain_declarationCuts hinner hd imported)).append (ih _ hrest)

/-- The edited content, declaration by declaration. -/
theorem edited_fileCuts_cons (hinner : Fits inner) (imported : Bool) {rest : List ImportDeclaration} {p : Nat}
    (h : Succession content p (d :: rest)) :
    edited content content.length p (fileCuts content inner imported p (d :: rest)) =
      edited content d.span.start p (inner ⟨p, d.span.start⟩) ++
        (edited content d.span.stop d.span.start (declarationCuts inner imported d) ++
          edited content content.length d.span.stop (fileCuts content inner (d.imports imported) d.span.stop rest)) := by
  obtain ⟨hp, ⟨t, ending, hd⟩, hrest⟩ := h
  have hdeclaration := chain_declarationCuts hinner hd imported
  have hbehind := chain_fileCuts hinner (d.imports imported) hrest
  rw [fileCuts, List.append_assoc, edited_append (hinner.chain ⟨p, d.span.start⟩ hp) (hdeclaration.append hbehind) (Nat.le_refl _),
    edited_append hdeclaration hbehind (Nat.le_refl _)]

theorem edited_goes (hgoes : d.goes imported = true) :
    edited content d.span.stop d.span.start (declarationCuts inner imported d) = [] := by
  rw [declarationCuts, if_pos hgoes]
  simp [edited, Bytes.slice]

end Chain

theorem succession_of_pairwise {content : Bytes} {ds : List ImportDeclaration} {p : Nat} (hp : p ≤ content.length)
    (hfrom : ∀ d ∈ ds, p ≤ d.span.start) (hpairwise : ds.Pairwise fun d d' => d.span.stop ≤ d'.span.start)
    (hdeclared : ∀ d ∈ ds, ∃ t ending, Declared content d t ending) : Succession content p ds := by
  induction ds generalizing p with
  | nil => exact hp
  | cons d rest ih =>
    obtain ⟨hbehind, hpairwise⟩ := List.pairwise_cons.mp hpairwise
    obtain ⟨⟨t, ending, hd⟩, hdeclared⟩ := List.forall_mem_cons.mp hdeclared
    exact ⟨hfrom d List.mem_cons_self, ⟨t, ending, hd⟩, ih hd.order.2.2.2.2.2 hbehind hpairwise hdeclared⟩

theorem succession_libraryImports (content : Bytes) : Succession content 0 (libraryImports content) :=
  succession_of_pairwise (Nat.zero_le _) (fun _ _ => Nat.zero_le _) (libraryImports_pairwise content) fun _ hd =>
    (exists_declared_of_importFrom? (importFrom?_of_mem hd)).2

theorem Succession.found {content : Bytes} {ds : List ImportDeclaration} {p : Nat} (h : Succession content p ds) :
    ∀ d ∈ ds, ∀ s ∈ d.specifiers, s.span.text content = s.text := by
  induction ds generalizing p with
  | nil => exact fun d hd => absurd hd List.not_mem_nil
  | cons d rest ih =>
    obtain ⟨-, ⟨t, ending, hd⟩, hrest⟩ := h
    exact List.forall_mem_cons.mpr ⟨hd.entries.found, ih hrest⟩

theorem fileInner_nil (content : Bytes) (imported : Bool) (p : Nat) (ds : List ImportDeclaration) :
    fileInner content (fun _ => []) imported p ds = [] := by
  induction ds generalizing imported p with
  | nil => rfl
  | cons d rest ih =>
    rw [fileInner, ih]
    simp [innerCuts]

section Reading

variable {content : Bytes} {imported : Bool}

theorem isEntry_rowTypeName : IsEntry rowTypeName :=
  ⟨by decide, by decide, trimBytes_of_visible (by decide)⟩

/-- The entries of a list after its edits, read again. -/
theorem names_edited_list {specs : List Specifier} {stop p : Nat} (hentries : Entries content stop none p specs)
    (hstays : specs = [] ∨ ∃ f rest, fates imported specs = f :: rest ∧ someKept (f :: rest) = true)
    (hwhole : ∀ s ∈ specs, s.Whole) (hstop : stop ≤ content.length) :
    names (edited content stop p (listCuts (fun _ => []) (fates imported specs))) =
      keptNames imported (specs.map (·.text)) := by
  obtain rfl | ⟨f, rest, hfates, hkept⟩ := hstays
  · cases hentries with
    | nil le gap =>
      have hgap := gap.names_end (x := []) nofun trivial
      rw [List.nil_append, names_blank Blank.nil] at hgap
      exact hgap
  · have hspecs := map_entry_fates imported specs
    have hnames := filterMap_fates imported specs
    have htexts : ∀ g ∈ f :: rest, ∀ text, g.text = some text → IsEntry text := by
      intro g hg text htext
      have hentry : g.entry ∈ specs := by
        rw [← hspecs, hfates]
        exact List.mem_map_of_mem hg
      rw [← hfates] at hg
      obtain rfl | ⟨-, rfl⟩ := text_of_mem_fates hg htext
      · exact hentries.isEntry _ hentry
      · exact isEntry_rowTypeName
    rw [hfates] at hspecs hnames
    rw [← hspecs] at hentries hwhole
    have hread := names_edited hkept hentries (fun g hg => hwhole _ (List.mem_map_of_mem hg)) htexts hstop
    rw [← hnames, hfates, ← hread]
    cases hentries with
    | cons le lt entry found gap more =>
      have hgap : Chain f.entry.span.start p [] := le
      have hcuts : Chain stop f.entry.span.start (listCuts (fun _ => []) (f :: rest)) :=
        (chain_listCuts fits_nil hkept (.cons le lt entry found gap more)).widen (Nat.le_refl _) more.last.le
      have happend := edited_append hgap hcuts hstop
      rw [List.nil_append] at happend
      rw [happend]
      exact gap.names_start nofun (hwhole _ List.mem_cons_self)

/-- The content behind an offset after the edits of its imports. A declaration is left out when it has entries and none
of them stays. Of another one nothing changes but the list, which holds the entries that stay. -/
inductive Rewritten (content : Bytes) : Bool → Nat → List ImportDeclaration → Bytes → Prop
  | done (imported : Bool) (p : Nat) : Rewritten content imported p [] (content.drop p)
  | removed {imported : Bool} {p : Nat} {d : ImportDeclaration} {rest : List ImportDeclaration} {after : Bytes}
      {t : ImportText} {ending : Bytes} (entries : d.names ≠ []) (goes : keptNames imported d.names = [])
      (there : Declared content d t ending)
      (behind : Rewritten content (imported || d.names.any rowComponents.contains) d.span.stop rest after) :
      Rewritten content imported p (d :: rest) (content.slice p d.span.start ++ after)
  | kept {imported : Bool} {p : Nat} {d : ImportDeclaration} {rest : List ImportDeclaration} {after : Bytes}
      {t : ImportText} {ending list : Bytes} {specs : List Specifier}
      (stays : d.names = [] ∨ keptNames imported d.names ≠ []) (there : Declared content d t ending)
      (reads : importFrom? ({ t with list }.text ++ ending) 0 =
        some ⟨⟨0, ({ t with list }.text ++ ending).length⟩, specs⟩)
      (names : (∀ s ∈ d.specifiers, s.Whole) → specs.map (·.text) = keptNames imported d.names)
      (behind : Rewritten content (imported || d.names.any rowComponents.contains) d.span.stop rest after) :
      Rewritten content imported p (d :: rest)
        (content.slice p d.span.start ++ (({ t with list }.text ++ ending) ++ after))

theorem imports_eq (d : ImportDeclaration) : d.imports imported = (imported || d.names.any rowComponents.contains) := by
  rw [ImportDeclaration.imports, ImportDeclaration.names, List.any_map]
  rfl

theorem keptNames_eq_nil_iff {specs : List Specifier} :
    keptNames imported (specs.map (·.text)) = [] ↔ someKept (fates imported specs) = false := by
  rw [← filterMap_fates, List.filterMap_eq_nil_iff, someKept, List.any_eq_false]
  simp

/-- No closing brace comes into a list. -/
theorem brace_not_mem_edited {inner : Span → List Cut} {d : ImportDeclaration} {t : ImportText} {ending : Bytes}
    (hinner : Fits inner) (h : Declared content d t ending) (hgoes : d.goes imported = false) :
    ('\x7d' : Char).toUInt8 ∉ edited content (t.listSpan d.span.start).stop (t.listSpan d.span.start).start
      (listCuts inner (fates imported d.specifiers)) := by
  have hstays := stays_of_goes hgoes
  obtain ⟨hchain, hle⟩ := chain_fates hinner h.entries hstays
  obtain ⟨-, -, -, -, -, hlength⟩ := h.order
  have hstop : (t.listSpan d.span.start).stop ≤ content.length := by have := h.order; omega
  -- a byte of the edited list is one of the list or of a new text
  intro hmem
  obtain hlist | ⟨c, hc, hmem⟩ := mem_edited (hchain.widen (Nat.le_refl _) hle) hstop hmem
  · rw [h.parts.2.1] at hlist
    exact h.valid.list hlist
  · obtain hnil | ⟨f, rest, hfates, hkept⟩ := hstays
    · rw [hnil] at hc
      cases hc
    · rw [hfates] at hc
      have htexts : ∀ g ∈ f :: rest, ∀ text, g.text = some text → text = g.entry.text ∨ text = rowTypeName := by
        rw [← hfates]
        exact fun g hg text htext => (text_of_mem_fates hg htext).imp_right And.right
      obtain hnil | hname := text_of_mem_listCuts hinner hkept htexts c hc
      · rw [hnil] at hmem
        cases hmem
      · rw [hname] at hmem
        revert hmem
        decide

/-- The edited content is as it should be, from an offset on. -/
theorem rewritten_edited (imported : Bool) {ds : List ImportDeclaration} {p : Nat} (h : Succession content p ds) :
    Rewritten content imported p ds (edited content content.length p (fileCuts content (fun _ => []) imported p ds)) := by
  induction ds generalizing imported p with
  | nil =>
    have hrest : edited content content.length p (fileCuts content (fun _ => []) imported p []) = content.drop p := by
      rw [fileCuts, edited, Bytes.slice, List.take_length]
    rw [hrest]
    exact .done imported p
  | cons d rest ih =>
    have hcons := edited_fileCuts_cons fits_nil imported h
    obtain ⟨hp, ⟨t, ending, hd⟩, hrest⟩ := h
    have hbehind := ih (d.imports imported) hrest
    rw [imports_eq] at hbehind
    rw [hcons, imports_eq]
    obtain ⟨hgoes, hdropped, hne⟩ | ⟨hgoes, hstays⟩ := goes_cases imported d
    · rw [edited_goes hgoes]
      exact .removed (by simpa [ImportDeclaration.names] using hne) (keptNames_eq_nil_iff.mpr hdropped) hd hbehind
    · have horder := hd.order
      have hbrace := brace_not_mem_edited fits_nil hd hgoes
      have hmodule : edited content (t.moduleSpan d.span.start).stop (t.moduleSpan d.span.start).start [] = t.module :=
        hd.parts.2.2.2.1
      rw [edited_declaration fits_nil hd hgoes horder.2.2.2.1, hmodule]
      have hreads := importFrom?_text (hd.valid.edit hbrace hd.valid.module) hd.library hd.ends
      refine .kept ?_ hd hreads (fun hwhole => ?_) hbehind
      · obtain hnil | ⟨f, rest, hfates, hkept⟩ := hstays
        · exact .inl (by rw [ImportDeclaration.names, hnil, List.map_nil])
        · refine .inr fun hnil => ?_
          rw [ImportDeclaration.names, keptNames_eq_nil_iff, hfates, hkept] at hnil
          cases hnil
      · exact (names_specifiersFrom _ _).trans (names_edited_list hd.entries hstays hwhole (by omega))

/-- The edits of the import lists that are asked for. -/
def importChanges (content : Bytes) : List Change :=
  importEdits content ((libraryImports content).any (·.names.contains rowTypeName)) (libraryImports content)

theorem replaceRowTypes_eq (content : Bytes) : replaceRowTypes content =
    importChanges content ++ if libraryImports content = [] then [] else typingEdits content := by
  unfold replaceRowTypes importChanges
  cases libraryImports content with
  | nil => rfl
  | cons d rest =>
    have himported : ((d :: rest).any fun d => d.specifiers.any (·.text = rowTypeName)) =
        (d :: rest).any (·.names.contains rowTypeName) := by
      congr 1
      funext d
      rw [ImportDeclaration.names, List.contains_eq_any_beq, List.any_map]
      congr 1
      funext s
      simp [eq_comm, beq_eq_decide]
    dsimp only
    rw [himported, if_neg (List.cons_ne_nil _ _)]

theorem importChanges_perm (content : Bytes) : (importChanges content).Perm
    ((fileCuts content (fun _ => []) ((libraryImports content).any (·.names.contains rowTypeName)) 0
      (libraryImports content)).map (Cut.change content)) := by
  have hperm := importEdits_perm (fun _ => []) ((libraryImports content).any (·.names.contains rowTypeName)) 0
    (succession_libraryImports content).found
  rwa [fileInner_nil, List.map_nil, List.append_nil] at hperm

/-- The rule edits the import lists of the library and then the typings. Every content takes the edits of the lists, and
nothing but the declarations changes. -/
theorem import_lists_rewritten (content : Bytes) :
    replaceRowTypes content =
      importChanges content ++ (if libraryImports content = [] then [] else typingEdits content) ∧
    ∃ result, applyChanges content (importChanges content) = .ok result ∧ Rewritten content
      ((libraryImports content).any (·.names.contains rowTypeName)) 0 (libraryImports content) result :=
  have hsuccession := succession_libraryImports content
  have hchain := chain_fileCuts fits_nil _ hsuccession
  ⟨replaceRowTypes_eq content, _, applyChanges_cuts hchain (importChanges_perm content), rewritten_edited _ hsuccession⟩

end Reading

/-- An entry whose first byte can go on the white space in front of it. -/
def strayImport : Bytes :=
  bytes "import \x7b RowType," ++ [0xc2, 0xa0, 0xa0] ++ bytes ", IgxGridRowComponent \x7d from 'igniteui-angular'"

/-- Such an entry is looked for too early in its list, and goes with the one behind it. -/
theorem import_list_damaged :
    let result := bytes "import \x7b RowType," ++ [0xc2, 0xa0] ++ bytes " \x7d from 'igniteui-angular'"
    applyChanges strayImport (importChanges strayImport) = .ok result ∧
      (libraryImports strayImport).map (keptNames true ·.names) = [[rowTypeName, [0xa0]]] ∧
      (libraryImports result).map (·.names) = [[rowTypeName]] := by
  unfold strayImport
  repeat rw [bytes_ofList]
  decide +kernel

end Codemod.Release12
