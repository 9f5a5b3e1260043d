import Codemod.Proofs.Release12.Matches

namespace Codemod.Release12

open Edit Markup

/-- An import of a list of names, part by part. -/
structure ImportText where
  /-- White space behind the keyword. -/
  space : Bytes
  /-- White space behind the second keyword, if there is one. -/
  typed : Option Bytes
  list : Bytes
  /-- White space behind the list. -/
  closing : Bytes
  /-- White space in front of the module name. -/
  quoting : Bytes
  opens : UInt8
  module : Bytes
  closes : UInt8

namespace ImportText

/-- Up to the list of names. -/
def head (t : ImportText) : Bytes := bytes "import" ++ t.space ++ t.typed.elim [] (bytes "type" ++ ·) ++ bytes "\x7b"

/-- From the list of names up to the module name. -/
def bridge (t : ImportText) : Bytes := bytes "\x7d" ++ t.closing ++ bytes "from" ++ t.quoting ++ [t.opens]

def text (t : ImportText) : Bytes := t.head ++ t.list ++ t.bridge ++ t.module ++ [t.closes]

/-- The parts are what their places in an import ask for. -/
structure Valid (t : ImportText) : Prop where
  space : t.space ≠ [] ∧ ∀ b ∈ t.space, isSpace b = true
  typed : ∀ s, t.typed = some s → s ≠ [] ∧ ∀ b ∈ s, isSpace b = true
  list : ('\x7d' : Char).toUInt8 ∉ t.list
  closing : ∀ b ∈ t.closing, isSpace b = true
  quoting : ∀ b ∈ t.quoting, isSpace b = true
  opens : isQuote t.opens = true
  module : t.module ≠ [] ∧ ∀ b ∈ t.module, isQuote b = false
  closes : isQuote t.closes = true

/-- Where the list lies in an import at an offset. -/
def listSpan (t : ImportText) (p : Nat) : Span := ⟨p + t.head.length, p + t.head.length + t.list.length⟩

def moduleSpan (t : ImportText) (p : Nat) : Span :=
  ⟨(t.listSpan p).stop + t.bridge.length, (t.listSpan p).stop + t.bridge.length + t.module.length⟩

/-- What an import is read as at an offset, with the text behind it. -/
def matched (t : ImportText) (p : Nat) (behind : Bytes) : ImportMatch :=
  ⟨t.listSpan p, t.moduleSpan p, ⟨p + t.text.length, behind⟩⟩

end ImportText

section Cursor

variable {c next : Cursor} {used : Bytes} {p : Nat} {r : Bytes} {b : UInt8}

theorem literal?_append (used : Bytes) : Cursor.literal? used ⟨p, used ++ r⟩ = some ⟨p + used.length, r⟩ := by
  rw [Cursor.literal?, if_pos (Bytes.startsWith_iff.mpr (List.prefix_append used r)), List.drop_left]

theorem moved_of_literal? (h : Cursor.literal? used c = some next) : c.Moved next used := by
  unfold Cursor.literal? at h
  split at h
  · next hstarts =>
    cases h
    obtain ⟨behind, hbehind⟩ := Bytes.startsWith_iff.mp hstarts
    refine ⟨?_, rfl⟩
    rw [← hbehind, List.drop_left]
  · cases h

theorem skip_append {q : UInt8 → Bool} (hused : ∀ x ∈ used, q x = true) (hb : q b = false) :
    Cursor.skip q ⟨p, used ++ b :: r⟩ = ⟨p + used.length, b :: r⟩ := by
  have hnot : ¬q b = true := by rw [hb]; exact Bool.false_ne_true
  rw [Cursor.skip, List.takeWhile_append_of_pos hused, List.dropWhile_append_of_pos hused,
    List.takeWhile_cons_of_neg hnot, List.dropWhile_cons_of_neg hnot, List.append_nil]

theorem exists_moved_skip (q : UInt8 → Bool) (c : Cursor) : ∃ used, c.Moved (c.skip q) used ∧ ∀ x ∈ used, q x = true :=
  ⟨c.rest.takeWhile q, Cursor.moved_skip q c, fun _ hx => List.mem_takeWhile_imp hx⟩

theorem skipBlank?_append (hne : used ≠ []) (hused : ∀ x ∈ used, isSpace x = true) (hb : isSpace b = false) :
    skipBlank? ⟨p, used ++ b :: r⟩ = some ⟨p + used.length, b :: r⟩ := by
  obtain ⟨a, used, rfl⟩ := List.exists_cons_of_ne_nil hne
  have ha : isSpace a = true := hused a List.mem_cons_self
  rw [skipBlank?, List.cons_append, List.head?_cons, Option.any_some, if_pos ha, ← List.cons_append, skip_append hused hb]

theorem moved_of_skipBlank? (h : skipBlank? c = some next) :
    ∃ used, c.Moved next used ∧ used ≠ [] ∧ ∀ x ∈ used, isSpace x = true := by
  unfold skipBlank? at h
  split at h
  · next hhead =>
    cases h
    refine ⟨c.rest.takeWhile isSpace, Cursor.moved_skip isSpace c, ?_, fun x hx => List.mem_takeWhile_imp hx⟩
    cases hrest : c.rest with
    | nil => rw [hrest] at hhead; cases hhead
    | cons a r =>
      rw [hrest] at hhead
      rw [List.takeWhile_cons_of_pos (show isSpace a = true from hhead)]
      exact List.cons_ne_nil _ _
  · cases h

theorem skipQuote?_cons (hb : isQuote b = true) : skipQuote? ⟨p, b :: r⟩ = some ⟨p + 1, r⟩ := if_pos hb

theorem moved_of_skipQuote? (h : skipQuote? c = some next) : ∃ b, c.Moved next [b] ∧ isQuote b = true := by
  unfold skipQuote? at h
  split at h
  · next hquote =>
    cases h
    cases hrest : c.rest with
    | nil => rw [hrest] at hquote; cases hquote
    | cons b r =>
      rw [hrest] at hquote
      exact ⟨b, Cursor.moved_cons hrest, hquote⟩
  · cases h

end Cursor

namespace ImportText

variable {t : ImportText}

/-- The text behind the first keyword and its white space is read up to the list. -/
theorem Valid.typed_literal? (ht : t.Valid) (p : Nat) (behind : Bytes) :
    let c : Cursor := ⟨p, t.typed.elim [] (bytes "type" ++ ·) ++ (bytes "\x7b" ++ behind)⟩
    Cursor.literal? "\x7b" (((Cursor.literal? "type" c).bind skipBlank?).getD c) =
      some ⟨p + (t.typed.elim [] (bytes "type" ++ ·)).length + 1, behind⟩ := by
  cases htyped : t.typed with
  | none =>
    have hnot : Cursor.literal? "type" ⟨p, bytes "\x7b" ++ behind⟩ = none := rfl
    dsimp only
    rw [Option.elim_none, List.nil_append, hnot]
    exact literal?_append _
  | some s =>
    obtain ⟨hne, hspace⟩ := ht.typed s htyped
    have hblank : skipBlank? ⟨p + (bytes "type").length, s ++ (bytes "\x7b" ++ behind)⟩ =
        some ⟨p + (bytes "type").length + s.length, bytes "\x7b" ++ behind⟩ := skipBlank?_append hne hspace rfl
    dsimp only
    rw [Option.elim_some, List.append_assoc, literal?_append, Option.bind_some, hblank, Option.getD_some,
      literal?_append, List.length_append, Nat.add_assoc p]
    rfl

theorem Valid.edit (ht : t.Valid) {list module : Bytes} (hlist : ('\x7d' : Char).toUInt8 ∉ list)
    (hmodule : module ≠ [] ∧ ∀ b ∈ module, isQuote b = false) : Valid { t with list, module } :=
  ⟨ht.space, ht.typed, hlist, ht.closing, ht.quoting, ht.opens, hmodule, ht.closes⟩

/-- An import is read back as its parts, whatever stands behind it. -/
theorem Valid.importAt? (ht : t.Valid) (p : Nat) (behind : Bytes) :
    importAt? ⟨p, t.text ++ behind⟩ = some (t.matched p behind) := by
  obtain ⟨hspaceNe, hspace⟩ := ht.space
  obtain ⟨hmoduleNe, hmodule⟩ := ht.module
  have htext : t.text ++ behind = bytes "import" ++ (t.space ++ (t.typed.elim [] (bytes "type" ++ ·) ++ (bytes "\x7b" ++
      (t.list ++ (bytes "\x7d" ++ (t.closing ++ (bytes "from" ++ (t.quoting ++ (t.opens :: (t.module ++
        (t.closes :: behind))))))))))) := by
    simp [text, head, bridge]
  have hafter (q : Nat) (rest : Bytes) :
      skipBlank? ⟨q, t.space ++ (t.typed.elim [] (bytes "type" ++ ·) ++ (bytes "\x7b" ++ rest))⟩ =
        some ⟨q + t.space.length, t.typed.elim [] (bytes "type" ++ ·) ++ (bytes "\x7b" ++ rest)⟩ := by
    cases t.typed with
    | none => exact skipBlank?_append hspaceNe hspace rfl
    | some s => exact skipBlank?_append hspaceNe hspace rfl
  have hlist (q : Nat) (rest : Bytes) : Cursor.skip (· != ('\x7d' : Char).toUInt8) ⟨q, t.list ++ (bytes "\x7d" ++ rest)⟩ =
      ⟨q + t.list.length, bytes "\x7d" ++ rest⟩ := by
    refine skip_append (fun x hx => ?_) rfl
    rw [bne_iff_ne]
    rintro rfl
    exact ht.list hx
  have hclosing (q : Nat) (rest : Bytes) : Cursor.skip isSpace ⟨q, t.closing ++ (bytes "from" ++ rest)⟩ =
      ⟨q + t.closing.length, bytes "from" ++ rest⟩ := skip_append ht.closing rfl
  have hquoteNot {b : UInt8} (hb : isQuote b = true) : isSpace b = false := by
    rw [isQuote, Bool.or_eq_true, beq_iff_eq, beq_iff_eq] at hb
    obtain rfl | rfl := hb <;> rfl
  have hquoting (q : Nat) (rest : Bytes) : Cursor.skip isSpace ⟨q, t.quoting ++ (t.opens :: rest)⟩ =
      ⟨q + t.quoting.length, t.opens :: rest⟩ := skip_append ht.quoting (hquoteNot ht.opens)
  have hname (q : Nat) (rest : Bytes) : Cursor.skip (!isQuote ·) ⟨q, t.module ++ (t.closes :: rest)⟩ =
      ⟨q + t.module.length, t.closes :: rest⟩ :=
    skip_append (fun x hx => by rw [hmodule x hx]; rfl) (by rw [ht.closes]; rfl)
  have hlong : 0 < t.module.length := List.length_pos_iff.mpr hmoduleNe
  unfold Release12.importAt?
  rw [htext, literal?_append, Option.bind_eq_bind, Option.bind_some, hafter, Option.bind_some]
  simp only [Option.bind_eq_bind]
  rw [ht.typed_literal?, Option.bind_some, hlist, literal?_append, Option.bind_some, hclosing, literal?_append,
    Option.bind_some, hquoting, skipQuote?_cons ht.opens, Option.bind_some, hname, skipQuote?_cons ht.closes]
  dsimp only
  rw [guard, if_pos (by omega), Option.pure_def, Option.bind_some, Option.bind_some, Option.pure_def, Option.some_inj]
  have hbrace : (bytes "\x7b").length = 1 ∧ (bytes "\x7d").length = 1 := ⟨rfl, rfl⟩
  simp only [matched, moduleSpan, listSpan, text, head, bridge, List.length_append, List.length_singleton, hbrace, ImportMatch.mk.injEq,
    Span.mk.injEq, Cursor.mk.injEq, and_true]
  refine ⟨⟨?_, ?_⟩, ⟨?_, ?_⟩, ?_⟩ <;> omega

/-- What is read as an import is one. -/
theorem exists_of_importAt? {c : Cursor} {m : ImportMatch} (h : Release12.importAt? c = some m) :
    ∃ t : ImportText, t.Valid ∧ c.rest = t.text ++ m.next.rest ∧ m = t.matched c.pos m.next.rest := by
  unfold Release12.importAt? at h
  obtain ⟨c₁, h₁, h⟩ := Option.bind_eq_some_iff.mp h
  obtain ⟨c₂, h₂, h⟩ := Option.bind_eq_some_iff.mp h
  obtain ⟨list, h₃, h⟩ := Option.bind_eq_some_iff.mp h
  obtain ⟨c₃, h₄, h⟩ := Option.bind_eq_some_iff.mp h
  obtain ⟨c₄, h₅, h⟩ := Option.bind_eq_some_iff.mp h
  obtain ⟨module, h₆, h⟩ := Option.bind_eq_some_iff.mp h
  obtain ⟨_, hguard, h⟩ := Option.bind_eq_some_iff.mp h
  obtain ⟨next, h₇, h⟩ := Option.bind_eq_some_iff.mp h
  cases h
  obtain ⟨space, hspace, hspaceNe, hspaces⟩ := moved_of_skipBlank? h₂
  obtain ⟨typed, htyped, htypes⟩ : ∃ typed : Option Bytes,
      c₂.Moved (((Cursor.literal? "type" c₂).bind skipBlank?).getD c₂) (typed.elim [] (bytes "type" ++ ·)) ∧
        ∀ s, typed = some s → s ≠ [] ∧ ∀ b ∈ s, isSpace b = true := by
    cases htype : (Cursor.literal? "type" c₂).bind skipBlank? with
    | none => exact ⟨none, ⟨rfl, rfl⟩, nofun⟩
    | some behind =>
      obtain ⟨word, hword, hblank⟩ := Option.bind_eq_some_iff.mp htype
      obtain ⟨s, hmoved, hne, hs⟩ := moved_of_skipBlank? hblank
      refine ⟨some s, (moved_of_literal? hword).trans hmoved, ?_⟩
      rintro s' ⟨⟩
      exact ⟨hne, hs⟩
  obtain ⟨opens, hopens, hopensQuote⟩ := moved_of_skipQuote? h₆
  obtain ⟨closes, hcloses, hclosesQuote⟩ := moved_of_skipQuote? h₇
  obtain ⟨names, hlist, hnames⟩ := exists_moved_skip (· != ('\x7d' : Char).toUInt8) list
  obtain ⟨closing, hclosing, hclosings⟩ := exists_moved_skip isSpace c₃
  obtain ⟨quoting, hquoting, hquotings⟩ := exists_moved_skip isSpace c₄
  obtain ⟨name, hname, hunquoted⟩ := exists_moved_skip (!isQuote ·) module
  have hhead := (((moved_of_literal? h₁).trans hspace).trans htyped).trans (moved_of_literal? h₃)
  have hbridge := ((((moved_of_literal? h₄).trans hclosing).trans (moved_of_literal? h₅)).trans hquoting).trans hopens
  have hwhole := (((hhead.trans hlist).trans hbridge).trans hname).trans hcloses
  let t : ImportText := ⟨space, typed, names, closing, quoting, opens, name, closes⟩
  have hlistPos : list.pos = c.pos + t.head.length := hhead.2
  have hlistStop : (list.skip (· != ('\x7d' : Char).toUInt8)).pos = list.pos + t.list.length := hlist.2
  have hmodulePos : module.pos = (list.skip (· != ('\x7d' : Char).toUInt8)).pos + t.bridge.length := hbridge.2
  have hmoduleStop : (module.skip (!isQuote ·)).pos = module.pos + t.module.length := hname.2
  have hnext : next.pos = c.pos + t.text.length := hwhole.2
  have hlong : module.pos < (module.skip (!isQuote ·)).pos := by
    unfold guard at hguard
    split at hguard
    · assumption
    · cases hguard
  refine ⟨t, ?_, hwhole.1, ?_⟩
  · refine ⟨⟨hspaceNe, hspaces⟩, htypes, fun hmem => ?_, hclosings, hquotings, hopensQuote, ⟨?_, fun b hb => ?_⟩, hclosesQuote⟩
    · exact absurd (hnames _ hmem) (by decide)
    · exact List.ne_nil_of_length_pos (by omega)
    · simpa using hunquoted b hb
  · simp only [matched, moduleSpan, listSpan, ImportMatch.mk.injEq, Span.mk.injEq]
    refine ⟨⟨hlistPos, ?_⟩, ⟨?_, ?_⟩, ?_⟩
    · omega
    · omega
    · omega
    · rw [← hnext]

end ImportText

/-- What stands behind a part that stands at an offset. -/
theorem prefix_drop_add {s front part : Bytes} {p : Nat} (h : front ++ part <+: s.drop p) :
    part <+: s.drop (p + front.length) := by
  obtain ⟨behind, hbehind⟩ := h
  refine ⟨behind, ?_⟩
  rw [← List.drop_drop, ← hbehind, List.append_assoc, List.drop_left]

/-- How the rest of a declaration can look behind the module name. -/
def endings : List Bytes := ["", ";", "\n", "\r\n", ";\n", ";\r\n"]

theorem declarationStop_ending {ending : Bytes} (h : ending ∈ endings) (p : Nat) :
    declarationStop ⟨p, ending⟩ = p + ending.length := by
  simp only [endings, List.mem_cons, List.not_mem_nil, or_false] at h
  rcases h with rfl | rfl | rfl | rfl | rfl | rfl <;> rfl

/-- The line break that a declaration goes on over. -/
theorem exists_break (c : Cursor) : ∃ last ∈ [bytes "", bytes "\n", bytes "\r\n"],
    c.Moved ((Cursor.literal? "\r\n" c).getD ((Cursor.literal? "\n" c).getD c)) last := by
  cases hreturn : Cursor.literal? "\r\n" c with
  | some next => exact ⟨bytes "\r\n", by simp, moved_of_literal? hreturn⟩
  | none =>
    cases hline : Cursor.literal? "\n" c with
    | some next => exact ⟨bytes "\n", by simp, moved_of_literal? hline⟩
    | none => exact ⟨bytes "", by simp, rfl, rfl⟩

/-- A declaration goes on over such a rest. -/
theorem exists_ending (c : Cursor) :
    ∃ ending ∈ endings, ending <+: c.rest ∧ declarationStop c = c.pos + ending.length := by
  unfold declarationStop
  dsimp only
  cases hclosed : Cursor.literal? ";" c with
  | some next =>
    obtain ⟨last, hlast, hmoved⟩ := exists_break next
    obtain ⟨hrest, hpos⟩ := (moved_of_literal? hclosed).trans hmoved
    have hended : ∀ last ∈ [bytes "", bytes "\n", bytes "\r\n"], bytes ";" ++ last ∈ endings := by decide
    exact ⟨_, hended last hlast, ⟨_, hrest.symm⟩, hpos⟩
  | none =>
    obtain ⟨last, hlast, hrest, hpos⟩ := exists_break c
    have hended : ∀ last ∈ [bytes "", bytes "\n", bytes "\r\n"], last ∈ endings := by decide
    exact ⟨last, hended last hlast, ⟨_, hrest.symm⟩, hpos⟩

/-- It goes on over the longest one. -/
theorem le_declarationStop {ending : Bytes} (h : ending ∈ endings) {c : Cursor} (hthere : ending <+: c.rest) :
    c.pos + ending.length ≤ declarationStop c := by
  obtain ⟨p, rest⟩ := c
  obtain ⟨behind, rfl⟩ := hthere
  simp only [endings, List.mem_cons, List.not_mem_nil, or_false] at h
  rcases h with rfl | rfl | rfl | rfl | rfl | rfl
  case inl =>
    obtain ⟨longest, -, -, hstop⟩ := exists_ending ⟨p, behind⟩
    exact Nat.le_trans (Nat.le_add_right p _) (Nat.le_of_eq hstop.symm)
  case inr.inl =>
    -- a line break may follow
    obtain ⟨last, -, -, hstop⟩ := exists_break ⟨p + 1, behind⟩
    exact Nat.le_trans (Nat.le_add_right (p + 1) _) (Nat.le_of_eq hstop.symm)
  all_goals exact Nat.le_refl _

/-- A declaration of the library as it stands in a content, with all of its semicolon and line break. -/
structure Declared (content : Bytes) (d : ImportDeclaration) (t : ImportText) (ending : Bytes) : Prop where
  valid : t.Valid
  library : t.module.contains "igniteui-angular" = true
  ends : ending ∈ endings
  there : t.text ++ ending <+: content.drop d.span.start
  longest : ∀ e ∈ endings, e <+: content.drop (d.span.start + t.text.length) → e.length ≤ ending.length
  stop : d.span.stop = d.span.start + (t.text ++ ending).length
  specifiers : d.specifiers = specifiersFrom (d.span.start + t.head.length) (Bytes.splitOn ',' t.list)

theorem text_matched {content : Bytes} {t : ImportText} {p : Nat} (h : t.text <+: content.drop p) (behind : Bytes) :
    (t.matched p behind).list.text content = t.list ∧ (t.matched p behind).module.text content = t.module := by
  have hmodule : t.head ++ t.list ++ t.bridge ++ t.module <+: content.drop p := (List.prefix_append _ _).trans h
  have hlist : t.head ++ t.list <+: content.drop p :=
    ((List.prefix_append _ _).trans (List.prefix_append _ _)).trans hmodule
  have hmodule := Bytes.slice_of_prefix_drop (prefix_drop_add hmodule)
  have hlist := Bytes.slice_of_prefix_drop (prefix_drop_add hlist)
  simp only [List.length_append, ← Nat.add_assoc] at hmodule
  exact ⟨hlist, hmodule⟩

/-- The import of the library that begins at an offset, if there is one. -/
def importFrom? (content : Bytes) (p : Nat) : Option ImportDeclaration :=
  (importAt? ⟨p, content.drop p⟩).bind (declaration? content p)

theorem exists_declared_of_importFrom? {content : Bytes} {p : Nat} {d : ImportDeclaration}
    (h : importFrom? content p = some d) : d.span.start = p ∧ ∃ t ending, Declared content d t ending := by
  obtain ⟨m, hm, hd⟩ := Option.bind_eq_some_iff.mp h
  obtain ⟨t, hvalid, hrest, hmatched⟩ := ImportText.exists_of_importAt? hm
  obtain ⟨ending, hending, hprefix, hstop⟩ := exists_ending m.next
  obtain ⟨hlist, hmodule⟩ := text_matched ⟨_, hrest.symm⟩ m.next.rest
  rw [← hmatched] at hlist hmodule
  rw [declaration?, hmodule, hstop, specifiers_eq, hlist] at hd
  split at hd
  · next hlibrary =>
    cases hd
    obtain ⟨behind, hbehind⟩ := hprefix
    have hdrop : content.drop p = t.text ++ m.next.rest := hrest
    refine ⟨rfl, t, ending, hvalid, hlibrary, hending, ⟨behind, ?_⟩, fun e he hthere => ?_, ?_, ?_⟩
    · rw [List.append_assoc, hbehind]
      exact hrest.symm
    · rw [← List.drop_drop, hdrop, List.drop_left] at hthere
      have hle := le_declarationStop he hthere
      omega
    · rw [hmatched, List.length_append, ← Nat.add_assoc]
      rfl
    · rw [hmatched]
      rfl
  · cases hd

theorem importFrom?_of_mem {content : Bytes} {d : ImportDeclaration} (hd : d ∈ libraryImports content) :
    importFrom? content d.span.start = some d := by
  rw [libraryImports_eq] at hd
  obtain ⟨⟨p, m⟩, hx, hd⟩ := List.mem_filterMap.mp hd
  obtain ⟨before, stop, hthere, hpattern⟩ := exists_of_mem_scanMatches 0 hx
  obtain ⟨m', hm, heq⟩ := Option.map_eq_some_iff.mp hpattern
  cases heq
  have hstart : d.span.start = p := by
    unfold declaration? at hd
    split at hd
    · cases hd
      rfl
    · cases hd
  rw [importFrom?, hstart, hm]
  exact hd

/-- The text of a declaration is read as one by itself. -/
theorem importFrom?_text {t : ImportText} (hvalid : t.Valid) (hlibrary : t.module.contains "igniteui-angular" = true)
    {ending : Bytes} (hending : ending ∈ endings) :
    importFrom? (t.text ++ ending) 0 = some ⟨⟨0, (t.text ++ ending).length⟩,
      specifiersFrom t.head.length (Bytes.splitOn ',' t.list)⟩ := by
  obtain ⟨hlist, hmodule⟩ := text_matched (p := 0) (List.prefix_append t.text ending) ending
  rw [importFrom?, List.drop_zero, hvalid.importAt?, Option.bind_some, declaration?, hmodule, if_pos hlibrary,
    specifiers_eq, hlist]
  have hstop : declarationStop (t.matched 0 ending).next = (t.text ++ ending).length := by
    rw [ImportText.matched, declarationStop_ending hending, List.length_append, Nat.zero_add]
  have hstart : (t.matched 0 ending).list.start = t.head.length := Nat.zero_add _
  rw [hstop, hstart]

section Scan

variable {α : Type} {content : Bytes} {pattern : Option UInt8 → Cursor → Option (α × Nat)}

/-- Matches begin behind those that were found before. -/
theorem scanMatches_pairwise {R : Nat × α → Nat × α → Prop}
    (hR : ∀ before before' p q x y stop stop', pattern before ⟨p, content.drop p⟩ = some (x, stop) →
      pattern before' ⟨q, content.drop q⟩ = some (y, stop') → p < q → stop ≤ q → R (p, x) (q, y))
    (previous : Option UInt8) (pos skip : Nat) :
    (scanMatches pattern previous pos skip (content.drop pos)).Pairwise R ∧
      ∀ x ∈ scanMatches pattern previous pos skip (content.drop pos), pos + skip ≤ x.1 := by
  induction hn : content.length - pos generalizing previous pos skip with
  | zero =>
    rw [List.drop_eq_nil_of_le (by omega)]
    exact ⟨List.Pairwise.nil, fun x hx => absurd hx List.not_mem_nil⟩
  | succ n ih =>
    have hlt : pos < content.length := by omega
    rw [List.drop_eq_getElem_cons hlt, scanMatches]
    split
    · next hskip =>
      obtain ⟨hpairs, hbehind⟩ := ih (some content[pos]) (pos + 1) (skip - 1) (by omega)
      refine ⟨hpairs, fun x hx => ?_⟩
      have := hbehind x hx
      omega
    · next hskip =>
      split
      · next found stop hfound =>
        obtain ⟨hpairs, hbehind⟩ := ih (some content[pos]) (pos + 1) (stop - pos - 1) (by omega)
        rw [← List.drop_eq_getElem_cons hlt] at hfound
        refine ⟨List.pairwise_cons.mpr ⟨fun y hy => ?_, hpairs⟩, List.forall_mem_cons.mpr ⟨by dsimp only; omega, fun x hx => ?_⟩⟩
        · obtain ⟨before', stop', -, hpattern⟩ := exists_of_mem_scanMatches (pos + 1) hy
          have := hbehind y hy
          exact hR _ _ _ _ _ _ _ _ hfound hpattern (by omega) (by omega)
        · have := hbehind x hx
          omega
      · obtain ⟨hpairs, hbehind⟩ := ih (some content[pos]) (pos + 1) 0 (by omega)
        refine ⟨hpairs, fun x hx => ?_⟩
        have := hbehind x hx
        omega

end Scan

/-- An import begins with its keyword. -/
theorem ImportText.head?_text (t : ImportText) : t.text.head? = some ('i' : Char).toUInt8 := rfl

/-- The declarations stand one behind another. -/
theorem libraryImports_pairwise (content : Bytes) :
    (libraryImports content).Pairwise fun d d' => d.span.stop ≤ d'.span.start := by
  rw [libraryImports_eq, List.pairwise_filterMap]
  refine (scanMatches_pairwise (fun before before' p q m m' stop stop' hm hm' _ hstop => ?_) none 0 0).1
  obtain ⟨m, hread, heq⟩ := Option.map_eq_some_iff.mp hm
  cases heq
  obtain ⟨m', hread', heq⟩ := Option.map_eq_some_iff.mp hm'
  cases heq
  intro d hd d' hd'
  have hspan {p : Nat} {m : ImportMatch} {d : ImportDeclaration} (hd : declaration? content p m = some d) :
      d.span = ⟨p, declarationStop m.next⟩ := by
    unfold declaration? at hd
    split at hd
    · cases hd
      rfl
    · cases hd
  rw [hspan hd, hspan hd']
  dsimp only
  by_contra hlt
  obtain ⟨t, -, hrest, hmatched⟩ := ImportText.exists_of_importAt? hread
  obtain ⟨t', -, hrest', -⟩ := ImportText.exists_of_importAt? hread'
  obtain ⟨ending, hending, ⟨behind, hbehind⟩, hdeclaration⟩ := exists_ending m.next
  have hpos : m.next.pos = p + t.text.length := by rw [hmatched]; rfl
  -- the keyword would be a byte of the ending
  have hbyte : content[q]? = ending[q - m.next.pos]? := by
    have hdrop : content.drop m.next.pos = ending ++ behind := by
      rw [hbehind, hpos, ← List.drop_drop]
      exact (congrArg (List.drop t.text.length) hrest).trans List.drop_left
    have hthere : (ending ++ behind)[q - m.next.pos]? = ending[q - m.next.pos]? := List.getElem?_append_left (by omega)
    rw [← hthere, ← hdrop, List.getElem?_drop, Nat.add_sub_cancel' hstop]
  have hkey : content[q]? = some ('i' : Char).toUInt8 := by
    have hhead : (content.drop q).head? = some ('i' : Char).toUInt8 := by
      rw [show content.drop q = t'.text ++ m'.next.rest from hrest', List.head?_append, t'.head?_text]
      rfl
    rwa [List.head?_drop] at hhead
  have hnot : ∀ ending ∈ endings, ('i' : Char).toUInt8 ∉ ending := by decide
  rw [hkey] at hbyte
  exact hnot ending hending (List.mem_of_getElem? hbyte.symm)

end Codemod.Release12
