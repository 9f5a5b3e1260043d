import Codemod.Proofs.Edit.Cuts
import Codemod.Proofs.Release12.ImportRewrite

namespace Codemod.Release12

open Edit Markup Text

section Scan

variable {c : Cursor} {change : Change} {stop : Nat}

/-- A typing that is found is an old name that ends before the place behind. -/
theorem exists_of_typingAt? {previous : Option UInt8} (h : typingAt? previous c = some (change, stop)) :
    ∃ front old behind, old ∈ rowComponents ∧ c.rest = front ++ (old ++ behind) ∧
      change = .replace (c.pos + front.length) old rowTypeName ∧ c.pos + front.length + old.length ≤ stop := by
  have hname {name next : Cursor} {front old : Bytes} (hmoved : c.Moved name front)
      (hold : rowComponentAt? name = some (old, next)) :
      old ∈ rowComponents ∧ c.rest = front ++ (old ++ next.rest) ∧ name.pos = c.pos + front.length ∧
        next.pos = c.pos + front.length + old.length := by
    obtain ⟨listed, hlisted, hread⟩ := List.exists_of_findSome?_eq_some hold
    obtain ⟨next, hnext, heq⟩ := Option.map_eq_some_iff.mp hread
    cases heq
    obtain ⟨hrest, hpos⟩ := hmoved.trans (moved_of_literal? hnext)
    rw [List.length_append, ← Nat.add_assoc] at hpos
    exact ⟨hlisted, by rw [hrest, List.append_assoc], hmoved.2, hpos⟩
  have heither {a b : Option (Change × Nat)} {x : Change × Nat} (h : (a <|> b) = some x) : a = some x ∨ b = some x := by
    cases a with
    | none => exact .inr h
    | some y => exact .inl h
  unfold typingAt? at h
  obtain hcast | hannotation := heither h
  · obtain ⟨-, -, hcast⟩ := Option.bind_eq_some_iff.mp hcast
    obtain ⟨name, hblank, hcast⟩ := Option.bind_eq_some_iff.mp hcast
    obtain ⟨⟨old, next⟩, hold, hcast⟩ := Option.bind_eq_some_iff.mp hcast
    obtain ⟨-, -, hcast⟩ := Option.bind_eq_some_iff.mp hcast
    obtain ⟨word, hword, hblank⟩ := Option.bind_eq_some_iff.mp hblank
    obtain ⟨space, hspace, -⟩ := moved_of_skipBlank? hblank
    obtain ⟨hmem, hrest, hpos, hnext⟩ := hname ((moved_of_literal? hword).trans hspace) hold
    cases hcast
    have hlast := (Cursor.moved_skip isSpace next).pos_le
    exact ⟨_, old, _, hmem, hrest, by rw [← hpos], by omega⟩
  · obtain ⟨colon, hcolon, hannotation⟩ := Option.bind_eq_some_iff.mp hannotation
    obtain ⟨⟨old, next⟩, hold, hannotation⟩ := Option.bind_eq_some_iff.mp hannotation
    obtain ⟨-, -, hannotation⟩ := Option.bind_eq_some_iff.mp hannotation
    obtain ⟨hmem, hrest, hpos, hnext⟩ := hname ((moved_of_literal? hcolon).trans (Cursor.moved_skip isSpace colon)) hold
    cases hannotation
    exact ⟨_, old, _, hmem, hrest, by rw [← hpos], by omega⟩

end Scan

/-- The typings as cuts. -/
def typingCuts (content : Bytes) : List Cut :=
  (scanMatches typingAt? none 0 0 content).map fun x => ⟨⟨x.2.position.toNat, x.2.stop.toNat⟩, x.2.text⟩

/-- A cut that puts the row type in the place of an old name. -/
structure Typing (content : Bytes) (c : Cut) : Prop where
  text : c.text = rowTypeName
  old : c.span.text content ∈ rowComponents
  stop : c.span.stop = c.span.start + (c.span.text content).length
  le : c.span.stop ≤ content.length

theorem typing_of_scan {content : Bytes} {previous : Option UInt8} {p stop : Nat} {change : Change}
    (h : typingAt? previous ⟨p, content.drop p⟩ = some (change, stop)) :
    let c : Cut := ⟨⟨change.position.toNat, change.stop.toNat⟩, change.text⟩
    Typing content c ∧ c.change content = change ∧ p ≤ c.span.start ∧ c.span.stop ≤ stop := by
  obtain ⟨front, old, behind, hold, hrest, rfl, hstop⟩ := exists_of_typingAt? h
  dsimp only at hrest hstop
  have hspan : (Change.replace (p + front.length) old rowTypeName).stop.toNat = p + front.length + old.length := by
    show ((p + front.length : Nat) + (old.length : Int)).toNat = _
    omega
  have hthere : old <+: content.drop (p + front.length) :=
    prefix_drop_add (hrest ▸ (List.prefix_append_right_inj front).mpr (List.prefix_append old behind))
  have htext : Span.text ⟨p + front.length, p + front.length + old.length⟩ content = old :=
    Bytes.slice_of_prefix_drop hthere
  rw [hspan]
  refine ⟨⟨rfl, ?_, ?_, Bytes.length_of_prefix_drop (ne_nil_of_old hold) hthere⟩, ?_, Nat.le_add_right _ _, hstop⟩
  · show Span.text ⟨p + front.length, p + front.length + old.length⟩ content ∈ rowComponents
    rwa [htext]
  · show p + front.length + old.length =
      p + front.length + (Span.text ⟨p + front.length, p + front.length + old.length⟩ content).length
    rw [htext]
  · show Change.replace (p + front.length) (Span.text ⟨p + front.length, p + front.length + old.length⟩ content) _ = _
    rw [htext]
    rfl

section Typings

variable {content : Bytes}

theorem typing_of_mem {c : Cut} (hc : c ∈ typingCuts content) : Typing content c := by
  obtain ⟨⟨p, change⟩, hx, rfl⟩ := List.mem_map.mp hc
  obtain ⟨before, stop, -, hpattern⟩ := exists_of_mem_scanMatches 0 hx
  exact (typing_of_scan hpattern).1

theorem typingCuts_changes (content : Bytes) : (typingCuts content).map (Cut.change content) = typingEdits content := by
  rw [typingCuts, typingEdits, List.map_map]
  refine List.map_congr_left fun ⟨p, change⟩ hx => ?_
  obtain ⟨before, stop, -, hpattern⟩ := exists_of_mem_scanMatches 0 hx
  exact (typing_of_scan hpattern).2.1

theorem Typing.lt {c : Cut} (h : Typing content c) : c.span.start < c.span.stop := by
  have := List.length_pos_iff.mpr (ne_nil_of_old h.old)
  have := h.stop
  omega

theorem chain_typingCuts (content : Bytes) : Chain content.length 0 (typingCuts content) := by
  refine chain_of_pairwise (Nat.zero_le _) ?_ fun c hc =>
    ⟨Nat.zero_le _, (typing_of_mem hc).lt, (typing_of_mem hc).le⟩
  rw [typingCuts, List.pairwise_map]
  refine (scanMatches_pairwise (fun before before' p q x y stop stop' hx hy _ hstop => ?_) none 0 0).1
  exact ((typing_of_scan hx).2.2.2.trans hstop).trans (typing_of_scan hy).2.2.1

/-- The bytes of a typing are those of an old name. -/
theorem Typing.byte {c : Cut} {n : Nat} (h : Typing content c) (hstart : c.span.start ≤ n) (hstop : n < c.span.stop) :
    ∃ old ∈ rowComponents, ∃ b, old[n - c.span.start]? = some b ∧ content[n]? = some b ∧
      c.span.stop = c.span.start + old.length := by
  have hlt : n - c.span.start < (c.span.text content).length := by
    have := h.stop
    omega
  have hbyte := (getElem?_slice (s := content) hstart hstop).symm
  exact ⟨_, h.old, _, List.getElem?_eq_getElem hlt, hbyte.trans (List.getElem?_eq_getElem hlt), h.stop⟩

theorem isLetter_of_old {old : Bytes} (hold : old ∈ rowComponents) {b : UInt8} (hb : b ∈ old) :
    Bytes.isLetter b = true :=
  List.all_eq_true.mp (spelling_of_old hold).2.1 b hb

/-- An offset that lies in no typing, or at the start of one. -/
def Clear (ts : List Cut) (n : Nat) : Prop := ∀ c ∈ ts, c.span.stop ≤ n ∨ n ≤ c.span.start

section Clear

variable {ts : List Cut} {n a b k : Nat} {x : UInt8}

theorem clear_of_not_letter (hts : ∀ c ∈ ts, Typing content c) (hx : content[n]? = some x)
    (hletter : Bytes.isLetter x = false) : Clear ts n := by
  intro c hc
  by_contra hin
  obtain ⟨old, hold, b, hb, hthere, -⟩ := (hts c hc).byte (n := n) (by omega) (by omega)
  rw [hx, Option.some_inj] at hthere
  rw [hthere, isLetter_of_old hold (List.mem_of_getElem? hb)] at hletter
  cases hletter

theorem clear_of_not_letter_before (hts : ∀ c ∈ ts, Typing content c) (hx : content[n]? = some x)
    (hletter : Bytes.isLetter x = false) : Clear ts (n + 1) := by
  intro c hc
  by_contra hin
  obtain ⟨old, hold, b, hb, hthere, -⟩ := (hts c hc).byte (n := n) (by omega) (by omega)
  rw [hx, Option.some_inj] at hthere
  rw [hthere, isLetter_of_old hold (List.mem_of_getElem? hb)] at hletter
  cases hletter

/-- No word of up to eight letters that begins with this one stands at the end of an old name. -/
theorem clear_of_word (hts : ∀ c ∈ ts, Typing content c) (hn : content[n]? = some ('i' : Char).toUInt8)
    (hx : content[n + k]? = some x) (hletter : Bytes.isLetter x = false) (hk : k ≤ 8) : Clear ts n := by
  intro c hc
  by_contra hin
  obtain ⟨old, hold, b, hb, hthere, hstop⟩ := (hts c hc).byte (n := n) (by omega) (by omega)
  rw [hn, Option.some_inj] at hthere
  have hshort : c.span.stop ≤ n + k := by
    have hclear := clear_of_not_letter hts hx hletter c hc
    omega
  refine (spelling_of_old hold).2.2.1 (List.mem_of_getElem? (i := n - c.span.start - (old.length - 8)) ?_)
  rw [List.getElem?_drop, hthere, ← hb]
  congr 1
  omega

theorem Typing.first {c : Cut} (h : Typing content c) : content[c.span.start]? = some ('I' : Char).toUInt8 := by
  obtain ⟨old, hold, x, hx, hthere, -⟩ := h.byte (Nat.le_refl _) h.lt
  rw [hthere, ← hx, Nat.sub_self, (spelling_of_old hold).1]

theorem Typing.mem_slice {c : Cut} (h : Typing content c) (ha : a ≤ c.span.start) (hb : c.span.start < b) :
    ('I' : Char).toUInt8 ∈ content.slice a b := by
  refine List.mem_of_getElem? (i := c.span.start - a) ?_
  rw [getElem?_slice ha hb, h.first]

/-- A range without the letter that old names begin with has no typing. -/
theorem within_eq_nil_of_not_mem (hts : ∀ c ∈ ts, Typing content c) (h : ('I' : Char).toUInt8 ∉ content.slice a b) :
    within ts ⟨a, b⟩ = [] :=
  within_eq_nil fun c hc hstart hstop => h ((hts c hc).mem_slice hstart ((hts c hc).lt.trans_le hstop))

theorem clear_of_not_mem (hts : ∀ c ∈ ts, Typing content c) (ha : Clear ts a) (hab : a ≤ b)
    (h : ('I' : Char).toUInt8 ∉ content.slice a b) : Clear ts b := by
  intro c hc
  by_contra hin
  have hclear := ha c hc
  exact h ((hts c hc).mem_slice (by omega) (by omega))

theorem fits_within {p q : Nat} (hts : ∀ c ∈ ts, Typing content c) (hchain : Chain q p ts) : Fits (within ts) :=
  ⟨fun _ hle => chain_within hchain hle, fun _ _ hc => (hts _ (mem_within.mp hc).1).text⟩

/-- The ends of a range whose bytes are no letters. -/
theorem clear_of_slice (hts : ∀ c ∈ ts, Typing content c) (hab : a < b) (hb : b ≤ content.length)
    (h : ∀ x ∈ content.slice a b, Bytes.isLetter x = false) : Clear ts a ∧ Clear ts b := by
  have hget {n : Nat} (ha : a ≤ n) (hn : n < b) : Bytes.isLetter content[n] = false := by
    refine h _ (List.mem_of_getElem? (i := n - a) ?_)
    rw [getElem?_slice ha hn, List.getElem?_eq_getElem]
  obtain ⟨n, rfl⟩ : ∃ n, b = n + 1 := ⟨b - 1, by omega⟩
  exact ⟨clear_of_not_letter hts (List.getElem?_eq_getElem (by omega)) (hget (Nat.le_refl _) hab),
    clear_of_not_letter_before hts (List.getElem?_eq_getElem (by omega)) (hget (by omega) (Nat.lt_succ_self _))⟩

end Clear

section Lists

variable {ts : List Cut} {stop p q : Nat} {prev : Option Specifier} {s : Specifier} {specs rest : List Specifier}

theorem not_letter_of_gap {left right ends : Prop} {g : Bytes} (h : Spacing left right ends g) :
    ∀ b ∈ g, Bytes.isLetter b = false := by
  intro b hb
  by_contra hletter
  rw [Bool.not_eq_false] at hletter
  have hvisible : isVisible b = true := by
    rw [isVisible_iff]
    simp only [Bytes.isLetter, Bool.or_eq_true, Bool.and_eq_true, decide_eq_true_eq, UInt8.le_iff_toNat_le] at hletter
    simp at hletter
    omega
  have hcomma : Bytes.isLetter comma = false := rfl
  rw [h.quiet b hb hvisible, hcomma] at hletter
  cases hletter

theorem within_gap (hts : ∀ c ∈ ts, Typing content c) {left right ends : Prop}
    (h : Spacing left right ends (content.slice p q)) : within ts ⟨p, q⟩ = [] := by
  refine within_eq_nil_of_not_mem hts fun hmem => ?_
  have := not_letter_of_gap h _ hmem
  revert this
  decide

/-- No typing lies at the ends of an entry. -/
theorem clear_of_entries_cons (hts : ∀ c ∈ ts, Typing content c) (h : Entries content stop prev p (s :: rest))
    (hp : Clear ts p) (hstop : Clear ts stop) (hle : stop ≤ content.length) :
    Clear ts s.span.start ∧ Clear ts s.span.stop := by
  cases h with
  | cons le lt entry found gap more =>
    have hwithin := more.le
    constructor
    · obtain heq | hlt := Nat.eq_or_lt_of_le le
      · rwa [← heq]
      · exact (clear_of_slice hts hlt (by omega) (not_letter_of_gap gap)).2
    · cases more with
      | nil le gap =>
        obtain heq | hlt := Nat.eq_or_lt_of_le le
        · rwa [heq]
        · exact (clear_of_slice hts hlt hle (not_letter_of_gap gap)).1
      | cons le lt _ _ gap more =>
        have hmore := more.le
        obtain heq | hlt := Nat.eq_or_lt_of_le le
        · -- a comma stands between two entries
          obtain ⟨trail, mid, lead, hsplit, -, -, ⟨ws, -, rfl⟩ | ⟨hends, -⟩⟩ := gap.split
          · rw [heq, Bytes.slice, List.drop_take, Nat.sub_self, List.take_zero] at hsplit
            simp at hsplit
          · cases hends
        · exact (clear_of_slice hts hlt (by omega) (not_letter_of_gap gap)).1

/-- The typings of a list lie in its entries. -/
theorem within_entries (hts : ∀ c ∈ ts, Typing content c) {m : Nat} (hchain : Chain m 0 ts)
    (h : Entries content stop prev p specs) (hp : Clear ts p) (hstop : Clear ts stop) (hle : stop ≤ content.length) :
    within ts ⟨p, stop⟩ = specs.flatMap (within ts ·.span) := by
  induction specs generalizing prev p with
  | nil =>
    cases h with
    | nil le gap => exact within_gap hts gap
  | cons s rest ih =>
    obtain ⟨hstart, hend⟩ := clear_of_entries_cons hts h hp hstop hle
    cases h with
    | cons le lt entry found gap more =>
      have hmore := more.le
      rw [within_split hchain le (by omega) hstart, within_gap hts gap, List.nil_append,
        within_split hchain lt.le hmore hend, ih more hend, List.flatMap_cons]

end Lists

section Declarations

variable {ts : List Cut} {d : ImportDeclaration} {t : ImportText} {ending : Bytes}

theorem clear_behind (hts : ∀ c ∈ ts, Typing content c) {a b : Nat} {front : Bytes} {x : UInt8}
    (h : content.slice a b = front ++ [x]) (hb : b ≤ content.length) (hx : Bytes.isLetter x = false) : Clear ts b := by
  have hlength : b - a = front.length + 1 := by
    rw [← slice_length hb, h, List.length_append]
    rfl
  obtain ⟨n, rfl⟩ : ∃ n, b = n + 1 := ⟨b - 1, by omega⟩
  refine clear_of_not_letter_before hts (x := x) ?_ hx
  rw [← getElem?_slice (a := a) (b := n + 1) (by omega) (Nat.lt_succ_self n), h,
    List.getElem?_append_right (by omega)]
  simp [show n - a - front.length = 0 by omega]

theorem not_letter_of_isQuote {x : UInt8} (h : isQuote x = true) : Bytes.isLetter x = false := by
  rw [isQuote, Bool.or_eq_true, beq_iff_eq, beq_iff_eq] at h
  obtain rfl | rfl := h <;> rfl

theorem not_letter_of_isSpace {x : UInt8} (h : isSpace x = true) : Bytes.isLetter x = false := by
  simp only [isSpace, Bool.or_eq_true, beq_iff_eq] at h
  rcases h with (((rfl | rfl) | rfl) | rfl) | rfl <;> rfl

/-- No typing lies at the borders of the parts of a declaration. -/
theorem Declared.clear (hts : ∀ c ∈ ts, Typing content c) (h : Declared content d t ending) :
    Clear ts d.span.start ∧ Clear ts (t.listSpan d.span.start).start ∧ Clear ts (t.listSpan d.span.start).stop ∧
      Clear ts (t.moduleSpan d.span.start).start ∧ Clear ts (t.moduleSpan d.span.start).stop ∧ Clear ts d.span.stop := by
  have horder := h.order
  obtain ⟨hhead, -, hbridge, -, hrest⟩ := h.parts
  obtain ⟨x, space, hx⟩ := List.exists_cons_of_ne_nil h.valid.space.1
  have hspace : isSpace x = true := h.valid.space.2 x (by rw [hx]; exact List.mem_cons_self)
  have hlong : 6 < t.head.length := by
    rw [ImportText.head, hx]
    simp [show (bytes "import").length = 6 from rfl]
  have hlistStart : (t.listSpan d.span.start).start = d.span.start + t.head.length := rfl
  have hmoduleStart : (t.moduleSpan d.span.start).start = (t.listSpan d.span.start).stop + t.bridge.length := rfl
  have hbrace : 0 < t.bridge.length := by
    simp only [ImportText.bridge, List.length_append, List.length_singleton]
    omega
  have hkeyword : content[d.span.start]? = some ('i' : Char).toUInt8 := by
    rw [← getElem?_slice (Nat.le_refl _) (b := (t.listSpan d.span.start).start) (by omega), hhead, Nat.sub_self]
    rfl
  have hblank : content[d.span.start + 6]? = some x := by
    rw [← getElem?_slice (a := d.span.start) (b := (t.listSpan d.span.start).start) (by omega) (by omega), hhead,
      Nat.add_sub_cancel_left, ImportText.head, hx]
    rfl
  have hclosing : content[(t.listSpan d.span.start).stop]? = some ('\x7d' : Char).toUInt8 := by
    rw [← getElem?_slice (Nat.le_refl _) (b := (t.moduleSpan d.span.start).start) (by omega), hbridge, Nat.sub_self]
    rfl
  have hquiet : ∀ b ∈ [t.closes] ++ ending, Bytes.isLetter b = false := by
    have hends : ∀ ending ∈ endings, ∀ b ∈ ending, Bytes.isLetter b = false := by decide
    refine List.forall_mem_append.mpr ⟨fun b hb => ?_, hends ending h.ends⟩
    rw [List.mem_singleton.mp hb]
    exact not_letter_of_isQuote h.valid.closes
  obtain ⟨hmoduleStop, hstop⟩ := clear_of_slice hts horder.2.2.2.2.1 horder.2.2.2.2.2 (by rwa [hrest])
  refine ⟨clear_of_word hts hkeyword hblank (not_letter_of_isSpace hspace) (by decide), ?_,
    clear_of_not_letter hts hclosing rfl, ?_, hmoduleStop, hstop⟩
  · exact clear_behind hts (x := 0x7b) hhead (by omega) rfl
  · exact clear_behind hts (x := t.opens) hbridge (by omega) (not_letter_of_isQuote h.valid.opens)

theorem not_mem_of_spaces {w : Bytes} (h : ∀ b ∈ w, isSpace b = true) : ('I' : Char).toUInt8 ∉ w := by
  intro hmem
  have := h _ hmem
  revert this
  decide

/-- Old names begin with a letter that the fixed parts of a declaration do not have. -/
theorem capital_not_mem (h : t.Valid) : ('I' : Char).toUInt8 ∉ t.head ∧ ('I' : Char).toUInt8 ∉ t.bridge := by
  have hquote {b : UInt8} (hb : isQuote b = true) : ('I' : Char).toUInt8 ≠ b := by
    rintro rfl
    cases hb
  have htyped : ('I' : Char).toUInt8 ∉ t.typed.elim [] (bytes "type" ++ ·) := by
    cases htype : t.typed with
    | none => exact List.not_mem_nil
    | some s =>
      rw [Option.elim_some, List.mem_append, not_or]
      exact ⟨by decide, not_mem_of_spaces (h.typed s htype).2⟩
  constructor
  · simp only [ImportText.head, List.mem_append, not_or]
    exact ⟨⟨⟨by decide, not_mem_of_spaces h.space.2⟩, htyped⟩, by decide⟩
  · simp only [ImportText.bridge, List.mem_append, List.mem_singleton, not_or]
    exact ⟨⟨⟨⟨by decide, not_mem_of_spaces h.closing⟩, by decide⟩, not_mem_of_spaces h.quoting⟩, hquote h.opens⟩

variable {imported : Bool}

/-- The typings in a list lie in the entries that stay as they are. -/
theorem within_list (hts : ∀ c ∈ ts, Typing content c) (hchain : Chain content.length 0 ts) (h : Declared content d t ending)
    {f : Fate} {rest : List Fate} (hfates : fates imported d.specifiers = f :: rest)
    (hkept : someKept (f :: rest) = true)
    (hapart : ∀ c ∈ listCuts (fun _ => []) (f :: rest), ∀ u ∈ ts, u.span.start < c.span.start ∨ c.span.stop ≤ u.span.start) :
    within ts (t.listSpan d.span.start) = innerCuts (within ts) (f :: rest) := by
  obtain ⟨-, hstart, hstop, -⟩ := h.clear hts
  have horder := h.order
  have hentries := h.entries
  have hspecs := map_entry_fates imported d.specifiers
  rw [hfates] at hspecs
  have hall := within_entries hts hchain hentries hstart hstop (by omega)
  rw [← hspecs, List.flatMap_map] at hall
  rw [← hspecs] at hentries
  refine hall.trans (List.flatMap_congr fun g hg => ?_)
  split
  · rfl
  · next hchanged =>
    obtain ⟨c, hc, hcover⟩ := exists_cut_of_changed (fun _ => []) hkept hentries hg hchanged
    refine within_eq_nil fun u hu hin hend => ?_
    have := hapart c hc u hu
    have := (hts u hu).lt
    omega

/-- No typing lies between the entries of a declaration and its module. -/
theorem within_lastStop (hts : ∀ c ∈ ts, Typing content c) (hchain : Chain content.length 0 ts)
    (h : Declared content d t ending) :
    d.lastStop ≤ (t.listSpan d.span.start).stop ∧ within ts ⟨d.lastStop, (t.listSpan d.span.start).stop⟩ = [] := by
  obtain ⟨hhead, hlist, -⟩ := h.order
  obtain ⟨-, hstart, -⟩ := h.clear hts
  have hentries := h.entries
  cases hspecs : d.specifiers with
  | nil =>
    have hlast : d.lastStop = d.span.start := by rw [ImportDeclaration.lastStop, hspecs]; rfl
    have hfront : within ts ⟨d.span.start, (t.listSpan d.span.start).start⟩ = [] := by
      refine within_eq_nil_of_not_mem hts ?_
      rw [h.parts.1]
      exact (capital_not_mem h.valid).1
    rw [hspecs] at hentries
    cases hentries with
    | nil le gap =>
      rw [hlast, within_split hchain hhead hlist hstart, hfront, within_gap hts gap]
      exact ⟨hhead.trans hlist, rfl⟩
  | cons s rest =>
    have hlast : d.lastStop = (rest.getLast?.getD s).span.stop := by
      rw [ImportDeclaration.lastStop, hspecs, List.getLast?_cons]
      rfl
    rw [hspecs] at hentries
    cases hentries with
    | cons le lt entry found gap more =>
      rw [hlast]
      cases more.last with
      | nil le gap => exact ⟨le, within_gap hts gap⟩

/-- Behind its entries the typings of a declaration lie in its module. -/
theorem within_module (hts : ∀ c ∈ ts, Typing content c) (hchain : Chain content.length 0 ts)
    (h : Declared content d t ending) : within ts ⟨d.lastStop, d.span.stop⟩ = within ts (t.moduleSpan d.span.start) := by
  obtain ⟨-, -, hbridge, hmodule, hlt, -⟩ := h.order
  obtain ⟨-, -, hstop, hmoduleStart, hmoduleStop, -⟩ := h.clear hts
  obtain ⟨hlast, hgap⟩ := within_lastStop hts hchain h
  have hbehind : within ts ⟨(t.moduleSpan d.span.start).stop, d.span.stop⟩ = [] := by
    refine within_eq_nil_of_not_mem hts ?_
    have hends : ∀ ending ∈ endings, ('I' : Char).toUInt8 ∉ ending := by decide
    rw [h.parts.2.2.2.2, List.mem_append, List.mem_singleton, not_or]
    refine ⟨fun heq => ?_, hends ending h.ends⟩
    have hquote := h.valid.closes
    rw [← heq] at hquote
    cases hquote
  have hbetween : within ts ⟨(t.listSpan d.span.start).stop, (t.moduleSpan d.span.start).start⟩ = [] := by
    refine within_eq_nil_of_not_mem hts ?_
    rw [h.parts.2.2.1]
    exact (capital_not_mem h.valid).2
  rw [within_split hchain hlast (by omega) hstop, hgap, List.nil_append, within_split hchain hbridge (by omega) hmoduleStart,
    hbetween, List.nil_append, within_split hchain hmodule hlt.le hmoduleStop, hbehind, List.append_nil]

/-- The typings in a declaration. -/
theorem within_declaration (hts : ∀ c ∈ ts, Typing content c) (hchain : Chain content.length 0 ts)
    (h : Declared content d t ending) (imported : Bool)
    (hapart : ∀ c ∈ declarationCuts (fun _ => []) imported d, ∀ u ∈ ts,
      u.span.start < c.span.start ∨ c.span.stop ≤ u.span.start) :
    within ts d.span = if d.goes imported then []
      else innerCuts (within ts) (fates imported d.specifiers) ++ within ts ⟨d.lastStop, d.span.stop⟩ := by
  obtain ⟨hhead, hlist, hbridge, hmodule, hlt, hle⟩ := h.order
  obtain ⟨-, hstart, hstop, -⟩ := h.clear hts
  rw [declarationCuts] at hapart
  obtain ⟨hgoes, -⟩ | ⟨hgoes, hstays⟩ := goes_cases imported d
  · rw [if_pos hgoes] at hapart ⊢
    refine within_eq_nil fun u hu hin hend => ?_
    have hself : u.span.start < d.span.start ∨ d.span.stop ≤ u.span.start :=
      hapart ⟨d.span, []⟩ (List.mem_singleton.mpr rfl) u hu
    have hlt := (hts u hu).lt
    omega
  · rw [hgoes, if_neg Bool.false_ne_true, List.append_nil] at hapart
    rw [hgoes, if_neg Bool.false_ne_true]
    obtain hnil | ⟨f, rest, hfates, hkept⟩ := hstays
    · rw [ImportDeclaration.lastStop, hnil]
      rfl
    · -- in front of the list, in the list, up to the module and behind
      obtain ⟨hlast, hgap⟩ := within_lastStop hts hchain h
      have hfront : within ts ⟨d.span.start, (t.listSpan d.span.start).start⟩ = [] := by
        refine within_eq_nil_of_not_mem hts ?_
        rw [h.parts.1]
        exact (capital_not_mem h.valid).1
      rw [hfates] at hapart ⊢
      have hinner := within_list hts hchain h hfates hkept hapart
      have hparts : within ts d.span = within ts ⟨d.span.start, (t.listSpan d.span.start).start⟩ ++
          (within ts (t.listSpan d.span.start) ++ within ts ⟨(t.listSpan d.span.start).stop, d.span.stop⟩) := by
        rw [← within_split hchain hlist (by omega) hstop]
        exact within_split (b := d.span.stop) hchain hhead (by omega) hstart
      have hbehind := within_split (b := d.span.stop) hchain hlast (by omega) hstop
      rw [hparts, hfront, hinner, List.nil_append, hbehind, hgap, List.nil_append]

/-- All typings, in the order in which they stand among the cuts of the imports. -/
theorem within_file (hts : ∀ c ∈ ts, Typing content c) (hchain : Chain content.length 0 ts) {imported : Bool}
    {ds : List ImportDeclaration} {p : Nat} (h : Succession content p ds) (hp : p ≤ content.length)
    (hapart : ∀ c ∈ fileCuts content (fun _ => []) imported p ds, ∀ u ∈ ts,
      u.span.start < c.span.start ∨ c.span.stop ≤ u.span.start) :
    within ts ⟨p, content.length⟩ = fileInner content (within ts) imported p ds := by
  induction ds generalizing imported p with
  | nil => rfl
  | cons d rest ih =>
    obtain ⟨hle, ⟨t, ending, hd⟩, hrest⟩ := h
    rw [fileCuts, List.nil_append] at hapart
    obtain ⟨hself, hbehind⟩ := List.forall_mem_append.mp hapart
    obtain ⟨hstart, -, -, -, -, hstop⟩ := hd.clear hts
    have horder := hd.order
    have hmiddle := within_split (a := d.span.start) hchain (by omega) horder.2.2.2.2.2 hstop
    have hsplit := within_split (b := content.length) hchain hle (by omega) hstart
    rw [hsplit, hmiddle, fileInner, ← ih hrest horder.2.2.2.2.2 hbehind, ← within_declaration hts hchain hd imported hself,
      List.append_assoc]

end Declarations

end Typings

end Codemod.Release12
