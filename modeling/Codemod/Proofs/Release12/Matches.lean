import Codemod.Proofs.Files.Spelling
import Codemod.Proofs.Markup.Mention
import Codemod.Proofs.Release12.Slices
import Codemod.Proofs.Text.Trim

namespace Codemod

open Edit Markup

namespace Bytes

variable {part s : Bytes}

theorem startsWith_iff : s.startsWith part = true ↔ part <+: s := List.isPrefixOf_iff_prefix

/-- A text stands at the offset at which it is found. -/
theorem prefix_of_indexOf? {i : Nat} (h : indexOf? part s = some i) : part <+: s.drop i := by
  induction s generalizing i with
  | nil =>
    rw [indexOf?] at h
    split at h
    · next hempty =>
      rw [List.isEmpty_iff.mp hempty]
      exact List.nil_prefix
    · cases h
  | cons c s ih =>
    rw [indexOf?] at h
    split at h
    · next hhere =>
      cases h
      exact startsWith_iff.mp hhere
    · obtain ⟨j, hj, rfl⟩ := Option.map_eq_some_iff.mp h
      exact ih hj

theorem slice_of_prefix_drop {i : Nat} (h : part <+: s.drop i) : s.slice i (i + part.length) = part := by
  obtain ⟨behind, hbehind⟩ := h
  rw [slice, List.drop_take, Nat.add_sub_cancel_left, ← hbehind, List.take_left]

theorem length_of_prefix_drop {i : Nat} (hne : part ≠ []) (h : part <+: s.drop i) : i + part.length ≤ s.length := by
  have hlength := h.length_le
  have hpos := List.length_pos_iff.mpr hne
  rw [List.length_drop] at hlength
  omega

end Bytes

namespace Release12

section Selectors

variable {content name : Bytes}

/-- The byte in front of an offset. -/
def byteBefore (content : Bytes) (offset : Nat) : Option UInt8 := (content.take offset).getLast?

/-- Where a name stands as a type selector from an offset on. -/
def offsetsFrom (content name : Bytes) (offset : Nat) : List Nat :=
  selectorOffsets name (byteBefore content offset) offset 0 (content.drop offset)

theorem byteBefore_succ {offset : Nat} (h : offset < content.length) :
    byteBefore content (offset + 1) = some content[offset] := by
  rw [byteBefore, List.take_add_one, List.getElem?_eq_getElem h, Option.toList_some, List.getLast?_concat]

theorem byteBefore_eq {offset : Nat} (h : offset ≤ content.length) :
    byteBefore content offset = if 0 < offset then content[offset - 1]? else none := by
  cases offset with
  | zero => rfl
  | succ n =>
    rw [byteBefore_succ h, if_pos (Nat.succ_pos n), Nat.add_sub_cancel, List.getElem?_eq_getElem]

theorem offsetsFrom_of_le {offset : Nat} (h : content.length ≤ offset) : offsetsFrom content name offset = [] := by
  rw [offsetsFrom, List.drop_eq_nil_of_le h]
  rfl

/-- The rest of an occurrence is passed over. -/
theorem selectorOffsets_skip (offset count : Nat) (h : offset + count ≤ content.length) :
    selectorOffsets name (byteBefore content offset) offset count (content.drop offset) =
      offsetsFrom content name (offset + count) := by
  induction count generalizing offset with
  | zero => rfl
  | succ count ih =>
    have hlt : offset < content.length := by omega
    have hrest := ih (offset + 1) (by omega)
    rw [byteBefore_succ hlt] at hrest
    rw [List.drop_eq_getElem_cons hlt, selectorOffsets, if_pos (Nat.succ_ne_zero count), Nat.add_sub_cancel, hrest]
    congr 1
    omega

/-- Where the name does not stand, the search goes on at the next byte. -/
theorem offsetsFrom_step {offset : Nat} (h : offset < content.length) (hnot : ¬name <+: content.drop offset) :
    offsetsFrom content name offset = offsetsFrom content name (offset + 1) := by
  have hstarts : ¬Bytes.startsWith (content[offset] :: content.drop (offset + 1)) name = true := by
    rw [← List.drop_eq_getElem_cons h, Bytes.startsWith_iff]
    exact hnot
  conv_lhs => rw [offsetsFrom, List.drop_eq_getElem_cons h, selectorOffsets, if_neg (not_not.mpr rfl), if_neg hstarts]
  rw [offsetsFrom, byteBefore_succ h]

/-- Where the name stands, the bytes around it decide, and the search goes on behind it. -/
theorem offsetsFrom_hit {offset : Nat} (hname : name ≠ []) (h : name <+: content.drop offset) :
    offsetsFrom content name offset =
      if (byteBefore content offset).any bindsLeft || (content[offset + name.length]?).any isIdentByte then
        offsetsFrom content name (offset + name.length)
      else offset :: offsetsFrom content name (offset + name.length) := by
  have hstop := Bytes.length_of_prefix_drop hname h
  have hpos := List.length_pos_iff.mpr hname
  have hlt : offset < content.length := by omega
  have hstarts : Bytes.startsWith (content[offset] :: content.drop (offset + 1)) name = true := by
    rw [← List.drop_eq_getElem_cons hlt]
    exact Bytes.startsWith_iff.mpr h
  have hlater : selectorOffsets name (some content[offset]) (offset + 1) (name.length - 1) (content.drop (offset + 1)) =
      offsetsFrom content name (offset + name.length) := by
    rw [← byteBefore_succ hlt, selectorOffsets_skip (offset + 1) (name.length - 1) (by omega)]
    congr 1
    omega
  have hbehind : ((content[offset] :: content.drop (offset + 1)).drop name.length).head? =
      content[offset + name.length]? := by
    rw [← List.drop_eq_getElem_cons hlt, List.drop_drop, List.head?_drop]
  conv_lhs => rw [offsetsFrom, List.drop_eq_getElem_cons hlt, selectorOffsets, if_neg (not_not.mpr rfl), if_pos hstarts]
  rw [hlater, hbehind]

/-- Nothing is found in front of the first occurrence. -/
theorem offsetsFrom_of_indexOf? {offset : Nat} (hname : name ≠ []) (h : offset ≤ content.length) :
    offsetsFrom content name offset = match Bytes.indexOf? name (content.drop offset) with
      | none => []
      | some i => offsetsFrom content name (offset + i) := by
  induction hn : content.length - offset generalizing offset with
  | zero =>
    have hend : content.drop offset = [] := List.drop_eq_nil_of_le (by omega)
    have hnone : Bytes.indexOf? name [] = none := if_neg (by simpa using hname)
    rw [hend, hnone]
    exact offsetsFrom_of_le (by omega)
  | succ n ih =>
    have hlt : offset < content.length := by omega
    by_cases hhere : name <+: content.drop offset
    · have hfound : Bytes.indexOf? name (content.drop offset) = some 0 := by
        rw [List.drop_eq_getElem_cons hlt] at hhere ⊢
        rw [Bytes.indexOf?, if_pos (Bytes.startsWith_iff.mpr hhere)]
      rw [hfound]
      rfl
    · have hlater : Bytes.indexOf? name (content.drop offset) =
          (Bytes.indexOf? name (content.drop (offset + 1))).map (· + 1) := by
        rw [List.drop_eq_getElem_cons hlt] at hhere ⊢
        rw [Bytes.indexOf?, if_neg fun hstarts => hhere (Bytes.startsWith_iff.mp hstarts)]
      rw [offsetsFrom_step hlt hhere, ih (by omega) (by omega), hlater]
      cases Bytes.indexOf? name (content.drop (offset + 1)) with
      | none => rfl
      | some i =>
        rw [Option.map_some]
        dsimp only
        congr 1
        omega

namespace Sliced

/-- The byte in front of an offset makes what follows another name. -/
def boundAt (content : Bytes) (offset : Nat) : Option Bool :=
  if 0 < offset then content[offset - 1]?.map bindsLeft else some false

/-- The byte at an offset has a property; the end of the content has none. -/
def byteAt (p : UInt8 → Bool) (content : Bytes) (offset : Nat) : Option Bool :=
  if offset < content.length then content[offset]?.map p else some false

/-- A search for a name that goes round after round: it looks in the rest of the content, at the byte in front of
what it finds and at the one behind, and goes on behind it. No slice and no byte may be out of bounds. -/
def occurrences (content name : Bytes) : Nat → Nat → Option (List Nat)
  | 0, _ => none
  | rounds + 1, offset => do
    let rest ← Span.text? ⟨offset, content.length⟩ content
    match Bytes.indexOf? name rest with
    | none => return []
    | some i =>
      let bound ← boundAt content (offset + i)
      let longer ← byteAt isIdentByte content (offset + i + name.length)
      let later ← occurrences content name rounds (offset + i + name.length)
      return if bound || longer then later else (offset + i) :: later

end Sliced

theorem boundAt_eq {offset : Nat} (h : offset ≤ content.length) :
    Sliced.boundAt content offset = some ((byteBefore content offset).any bindsLeft) := by
  rw [byteBefore_eq h, Sliced.boundAt]
  split
  · next hpos =>
    rw [List.getElem?_eq_getElem (by omega)]
    rfl
  · rfl

theorem byteAt_eq (p : UInt8 → Bool) (offset : Nat) : Sliced.byteAt p content offset = some ((content[offset]?).any p) := by
  rw [Sliced.byteAt]
  split
  · next hlt =>
    rw [List.getElem?_eq_getElem hlt]
    rfl
  · next hnot =>
    rw [List.getElem?_eq_none (by omega)]
    rfl

/-- The search ends, stays in the content, and finds the name where the rule does. -/
theorem occurrences_eq (hname : name ≠ []) {rounds offset : Nat} (h : offset ≤ content.length)
    (hrounds : content.length - offset < rounds) :
    Sliced.occurrences content name rounds offset = some (offsetsFrom content name offset) ∧
      ∀ pos ∈ offsetsFrom content name offset, name <+: content.drop pos := by
  induction rounds generalizing offset with
  | zero => omega
  | succ rounds ih =>
    have hrest : Span.text? ⟨offset, content.length⟩ content = some (content.drop offset) := by
      rw [Span.text?_eq (Span.within_content h (Nat.le_refl _)), Span.text, Bytes.slice, List.take_length]
    rw [offsetsFrom_of_indexOf? hname h, Sliced.occurrences, hrest, Option.bind_eq_bind, Option.bind_some]
    cases hfind : Bytes.indexOf? name (content.drop offset) with
    | none => exact ⟨rfl, fun pos hpos => absurd hpos List.not_mem_nil⟩
    | some i =>
      have hthere : name <+: content.drop (offset + i) := by
        rw [← List.drop_drop]
        exact Bytes.prefix_of_indexOf? hfind
      have hstop := Bytes.length_of_prefix_drop hname hthere
      have hpos := List.length_pos_iff.mpr hname
      obtain ⟨hlater, hall⟩ := ih hstop (by omega)
      dsimp only
      rw [boundAt_eq (by omega), byteAt_eq, hlater, offsetsFrom_hit hname hthere]
      refine ⟨rfl, fun pos hmem => ?_⟩
      split at hmem
      · exact hall pos hmem
      · obtain rfl | hmem := List.mem_cons.mp hmem
        · exact hthere
        · exact hall pos hmem

/-- The renaming of selectors, unless one of its slices is out of bounds. -/
def Sliced.renameSelectors (f : Family) (content : Bytes) : Option (List Change) :=
  flatMap? (fun (old, new) => do
    (← Sliced.occurrences content (bytes old) (content.length + 1) 0).mapM fun pos =>
      Change.replaceSpan? content ⟨pos, pos + (bytes old).length⟩ (bytes new)) f.selectors

theorem makes_replace {pos : Nat} {old new : Bytes} (hne : old ≠ []) (h : old <+: content.drop pos) :
    Makes content (Change.replaceSpan? content ⟨pos, pos + old.length⟩ new) (.replace pos old new) := by
  have hstop := Bytes.length_of_prefix_drop hne h
  have hwithin : Span.Within ⟨pos, pos + old.length⟩ ⟨0, content.length⟩ :=
    Span.within_content (Nat.le_add_right pos old.length) hstop
  have hspan := Makes.replaceSpan new hwithin
  rwa [Change.replaceSpan, Span.text, Bytes.slice_of_prefix_drop h] at hspan

theorem renameSelectors_yields {f : Family} (hf : f ∈ families) (content : Bytes) :
    Yields content (Sliced.renameSelectors f content) (renameSelectors f content) := by
  have hnames : ∀ f ∈ families, ∀ x ∈ f.selectors, bytes x.1 ≠ [] := by decide
  apply Yields.flatMap
  intro x hx
  have hname := hnames f hf x hx
  have hrounds : content.length - 0 < content.length + 1 := by omega
  obtain ⟨hfound, hthere⟩ := occurrences_eq hname (Nat.zero_le content.length) hrounds
  dsimp only
  rw [hfound]
  exact .map fun pos hpos => makes_replace hname (hthere pos hpos)

end Selectors

section Imports

variable {content : Bytes} {c next : Cursor}

/-- A cursor at an offset of a content. -/
structure CursorIn (content : Bytes) (c : Cursor) : Prop where
  pos : c.pos ≤ content.length
  rest : c.rest = content.drop c.pos

/-- A cursor that has moved on in a content. -/
structure Advances (content : Bytes) (c next : Cursor) : Prop where
  there : CursorIn content next
  le : c.pos ≤ next.pos

theorem Advances.trans {a b c : Cursor} (hab : Advances content a b) (hbc : Advances content b c) : Advances content a c :=
  ⟨hbc.there, hab.le.trans hbc.le⟩

namespace CursorIn

variable (h : CursorIn content c)

include h

theorem advances {used : Bytes} (hmoved : c.Moved next used) : Advances content c next := by
  obtain ⟨hrest, hpos⟩ := hmoved
  have hlength := congrArg List.length (h.rest.symm.trans hrest)
  rw [List.length_drop, List.length_append] at hlength
  have hstart := h.pos
  refine ⟨⟨by omega, ?_⟩, by omega⟩
  rw [hpos, ← List.drop_drop, ← h.rest, hrest, List.drop_left]

theorem skip (p : UInt8 → Bool) : Advances content c (c.skip p) := h.advances (Cursor.moved_skip p c)

theorem literal {text : Bytes} (hnext : c.literal? text = some next) :
    Advances content c next ∧ next.pos = c.pos + text.length ∧ text <+: content.drop c.pos := by
  unfold Cursor.literal? at hnext
  split at hnext
  · next hstarts =>
    cases hnext
    have hprefix := Bytes.startsWith_iff.mp hstarts
    have hmoved : c.Moved ⟨c.pos + text.length, c.rest.drop text.length⟩ text := by
      refine ⟨?_, rfl⟩
      obtain ⟨behind, hbehind⟩ := hprefix
      rw [← hbehind, List.drop_left]
    exact ⟨h.advances hmoved, rfl, h.rest ▸ hprefix⟩
  · cases hnext

theorem skipBlank (hnext : skipBlank? c = some next) : Advances content c next := by
  unfold skipBlank? at hnext
  split at hnext
  · cases hnext
    exact h.skip isSpace
  · cases hnext

theorem skipQuote (hnext : skipQuote? c = some next) : Advances content c next := by
  unfold skipQuote? at hnext
  split at hnext
  · next hquote =>
    cases hnext
    cases hrest : c.rest with
    | nil =>
      rw [hrest] at hquote
      cases hquote
    | cons q r =>
      exact h.advances (Cursor.moved_cons hrest)
  · cases hnext

/-- The parts of an import stand in the content one behind another. -/
theorem importAt {m : ImportMatch} (hm : importAt? c = some m) :
    m.list.Within ⟨c.pos, m.next.pos⟩ ∧ m.module.Within ⟨c.pos, m.next.pos⟩ ∧ Advances content c m.next := by
  unfold importAt? at hm
  obtain ⟨c₁, h₁, hm⟩ := Option.bind_eq_some_iff.mp hm
  obtain ⟨c₂, h₂, hm⟩ := Option.bind_eq_some_iff.mp hm
  obtain ⟨list, hlist, hm⟩ := Option.bind_eq_some_iff.mp hm
  obtain ⟨c₃, h₃, hm⟩ := Option.bind_eq_some_iff.mp hm
  obtain ⟨c₄, h₄, hm⟩ := Option.bind_eq_some_iff.mp hm
  obtain ⟨module, hmodule, hm⟩ := Option.bind_eq_some_iff.mp hm
  obtain ⟨-, hguard, hm⟩ := Option.bind_eq_some_iff.mp hm
  obtain ⟨next, hnext, hm⟩ := Option.bind_eq_some_iff.mp hm
  cases hm
  have hopen : Advances content c c₂ := (h.literal h₁).1.trans ((h.literal h₁).1.there.skipBlank h₂)
  have htyped : Advances content c₂ ((Option.bind (Cursor.literal? "type" c₂) skipBlank?).getD c₂) := by
    cases htype : Option.bind (Cursor.literal? "type" c₂) skipBlank? with
    | none => exact ⟨hopen.there, Nat.le_refl _⟩
    | some typed =>
      obtain ⟨word, hword, hblank⟩ := Option.bind_eq_some_iff.mp htype
      have hmoved := (hopen.there.literal hword).1
      exact hmoved.trans (hmoved.there.skipBlank hblank)
  have hbegin : Advances content c list := hopen.trans (htyped.trans (htyped.there.literal hlist).1)
  have hend := hbegin.there.skip (· != ('\x7d' : Char).toUInt8)
  have hclosed : Advances content _ c₃ := (hend.there.literal h₃).1
  have hspace := hclosed.there.skip isSpace
  have hfrom : Advances content _ c₄ := (hspace.there.literal h₄).1
  have hspace' := hfrom.there.skip isSpace
  have hquoted : Advances content _ module := hspace'.there.skipQuote hmodule
  have hname := hquoted.there.skip (!isQuote ·)
  have hlast : Advances content _ next := hname.there.skipQuote hnext
  have hbehind : Advances content c module :=
    hbegin.trans (hend.trans (hclosed.trans (hspace.trans (hfrom.trans (hspace'.trans hquoted)))))
  have hrest : Advances content module next := hname.trans hlast
  refine ⟨⟨hbegin.le, hend.le, ?_⟩, ⟨hbehind.le, hname.le, hlast.le⟩, hbehind.trans hrest⟩
  exact ((hclosed.trans (hspace.trans (hfrom.trans (hspace'.trans hquoted)))).trans hrest).le

end CursorIn

/-- What a scan finds is what the pattern reads at some offset. -/
theorem exists_of_mem_scanMatches {α : Type} {pattern : Option UInt8 → Cursor → Option (α × Nat)}
    {previous : Option UInt8} (pos : Nat) {skip : Nat} {x : Nat × α}
    (hx : x ∈ scanMatches pattern previous pos skip (content.drop pos)) :
    ∃ before stop, CursorIn content ⟨x.1, content.drop x.1⟩ ∧ pattern before ⟨x.1, content.drop x.1⟩ = some (x.2, stop) := by
  induction hn : content.length - pos generalizing previous pos skip with
  | zero =>
    rw [List.drop_eq_nil_of_le (by omega)] at hx
    cases hx
  | succ n ih =>
    have hlt : pos < content.length := by omega
    rw [List.drop_eq_getElem_cons hlt, scanMatches] at hx
    split at hx
    · exact ih _ hx (by omega)
    · split at hx
      · next found stop hfound =>
        obtain rfl | hx := List.mem_cons.mp hx
        · rw [← List.drop_eq_getElem_cons hlt] at hfound
          exact ⟨_, _, ⟨hlt.le, rfl⟩, hfound⟩
        · exact ih _ hx (by omega)
      · exact ih _ hx (by omega)

/-- An entry that is what the content has at its range. -/
structure Specifier.Fits (content : Bytes) (within : Span) (s : Specifier) : Prop where
  within : s.span.Within within
  found : s.span.text content = s.text

/-- The entry in a piece of a list, if there is one. -/
def specifier? (pos : Nat) (piece : Bytes) : Option Specifier :=
  let trimmed := Text.trimBytes piece
  let start := pos + (Bytes.indexOf? trimmed piece).getD 0
  if trimmed.isEmpty then none else some ⟨trimmed, ⟨start, start + trimmed.length⟩⟩

/-- The entries in the pieces of a list that stand one behind another. -/
def specifiersFrom : Nat → List Bytes → List Specifier
  | _, [] => []
  | pos, piece :: rest => (specifier? pos piece).toList ++ specifiersFrom (pos + piece.length + 1) rest

theorem specifiers_eq (content : Bytes) (list : Span) :
    specifiers content list = specifiersFrom list.start (Bytes.splitOn ',' (list.text content)) := by
  have hfold (pieces : List Bytes) (pos : Nat) (found : List Specifier) :
      (pieces.foldl (fun state piece =>
        let trimmed := Text.trimBytes piece
        let start := state.1 + (Bytes.indexOf? trimmed piece).getD 0
        (state.1 + piece.length + 1,
          if trimmed.isEmpty then state.2 else state.2 ++ [⟨trimmed, ⟨start, start + trimmed.length⟩⟩]))
        (pos, found)).2 = found ++ specifiersFrom pos pieces := by
    induction pieces generalizing pos found with
    | nil => exact (List.append_nil found).symm
    | cons piece rest ih =>
      rw [List.foldl_cons, ih, specifiersFrom, specifier?]
      split
      · rfl
      · exact List.append_assoc ..
  exact (hfold _ list.start []).trans (List.nil_append _)

/-- The places where a list is cut, found one after another; a slice out of bounds ends the search. -/
def Sliced.specifiers (content : Bytes) (stop : Nat) : Nat → Nat → Option (List Specifier)
  | 0, _ => none
  | rounds + 1, pos =>
    if stop < pos then some [] else do
      let rest ← Span.text? ⟨pos, stop⟩ content
      let next := ((rest.findIdx? (· == (',' : Char).toUInt8)).map (pos + ·)).getD stop
      let piece ← Span.text? ⟨pos, next⟩ content
      let later ← specifiers content stop rounds (next + 1)
      return (specifier? pos piece).toList ++ later

theorem specifier?_fits {pos next : Nat} (h : Span.Within ⟨pos, next⟩ ⟨0, content.length⟩) {s : Specifier}
    (hs : specifier? pos (Span.text ⟨pos, next⟩ content) = some s) : s.Fits content ⟨pos, next⟩ := by
  unfold specifier? at hs
  generalize hpiece : Span.text ⟨pos, next⟩ content = piece at hs
  dsimp only at hs
  split at hs
  · cases hs
  · next hempty =>
    cases hs
    have hpart : (Bytes.indexOf? (Text.trimBytes piece) piece).isSome = true :=
      (contains_iff piece (Text.trimBytes piece)).mpr (Text.trimBytes_infix piece)
    obtain ⟨i, hi⟩ := Option.isSome_iff_exists.mp hpart
    have hprefix : Text.trimBytes piece <+: (content.take next).drop (pos + i) := by
      have hdrop : (content.take next).drop pos = piece := hpiece
      rw [← List.drop_drop, hdrop]
      exact Bytes.prefix_of_indexOf? hi
    have hlength := Bytes.length_of_prefix_drop (by simpa using hempty) hprefix
    rw [List.length_take, Nat.min_eq_left h.2.2] at hlength
    rw [hi, Option.getD_some]
    refine ⟨⟨Nat.le_add_right .., Nat.le_add_right .., hlength⟩, ?_⟩
    apply Bytes.slice_of_prefix_drop
    rw [List.drop_take] at hprefix
    exact hprefix.trans (List.take_prefix ..)

/-- The list is cut at the first separator, if it has one. -/
theorem splitOn_slice {pos stop : Nat} (h : Span.Within ⟨pos, stop⟩ ⟨0, content.length⟩) (sep : UInt8) :
    let next := (((content.slice pos stop).findIdx? (· == sep)).map (pos + ·)).getD stop
    pos ≤ next ∧ next ≤ stop ∧ Bytes.splitOn sep (content.slice pos stop) =
      content.slice pos next :: if next < stop then Bytes.splitOn sep (content.slice (next + 1) stop) else [] := by
  cases hfind : (content.slice pos stop).findIdx? (· == sep) with
  | none =>
    refine ⟨h.2.1, Nat.le_refl _, ?_⟩
    rw [Option.map_none, Option.getD_none, if_neg (Nat.lt_irrefl _)]
    apply Bytes.splitOn_of_not_mem
    intro hmem
    have hall := List.findIdx?_eq_none_iff.mp hfind sep hmem
    simp at hall
  | some i =>
    obtain ⟨hlt, hsep, hbefore⟩ := List.findIdx?_eq_some_iff_getElem.mp hfind
    have hlength : (content.slice pos stop).length = stop - pos := slice_length h.2.2
    have hstart := h.2.1
    dsimp only at hstart
    have hfront : content.slice pos (pos + i) = (content.slice pos stop).take i := by
      rw [Bytes.slice, Bytes.slice, List.drop_take, List.drop_take, List.take_take]
      congr 1
      omega
    have hback : content.slice (pos + i + 1) stop = (content.slice pos stop).drop (i + 1) := by
      rw [Bytes.slice, Bytes.slice, List.drop_drop]
      congr 1
    have hsplit : content.slice pos stop = content.slice pos (pos + i) ++ sep :: content.slice (pos + i + 1) stop := by
      rw [hfront, hback, ← (beq_iff_eq.mp hsep : _ = sep), ← List.drop_eq_getElem_cons hlt, List.take_append_drop]
    have hnot : sep ∉ content.slice pos (pos + i) := by
      rw [hfront]
      intro hmem
      obtain ⟨j, hj, heq⟩ := List.mem_iff_getElem.mp hmem
      rw [List.getElem_take] at heq
      rw [List.length_take] at hj
      exact hbefore j (by omega) (beq_iff_eq.mpr heq)
    rw [Option.map_some, Option.getD_some]
    refine ⟨Nat.le_add_right .., by omega, ?_⟩
    rw [if_pos (by omega)]
    conv_lhs => rw [hsplit, Bytes.splitOn_append, Bytes.splitOn_of_not_mem hnot]
    rfl

/-- Entries that stand in a range, one behind another. -/
structure Listed (content : Bytes) (within : Span) (specs : List Specifier) : Prop where
  fits : ∀ s ∈ specs, s.Fits content within
  apart : specs.Pairwise fun a b => a.span.stop ≤ b.span.start

theorem Specifier.Fits.widen {lo hi lo' hi' : Nat} {s : Specifier} (h : s.Fits content ⟨lo, hi⟩) (hlo : lo' ≤ lo)
    (hhi : hi ≤ hi') : s.Fits content ⟨lo', hi'⟩ :=
  ⟨⟨hlo.trans h.within.1, h.within.2.1, h.within.2.2.trans hhi⟩, h.found⟩

/-- The search for the entries ends and stays in the content, and each stands where it is said to. -/
theorem sliced_specifiers {pos stop rounds : Nat} (h : Span.Within ⟨pos, stop⟩ ⟨0, content.length⟩)
    (hrounds : stop + 1 - pos < rounds) :
    let specs := specifiersFrom pos (Bytes.splitOn ',' (Span.text ⟨pos, stop⟩ content))
    Sliced.specifiers content stop rounds pos = some specs ∧ Listed content ⟨pos, stop⟩ specs := by
  induction rounds generalizing pos with
  | zero => omega
  | succ rounds ih =>
    obtain ⟨-, hstart, hstop⟩ := h
    dsimp only at hstart hstop
    obtain ⟨hnext, hle, hsplit⟩ := splitOn_slice (Span.within_content hstart hstop) ((',' : Char).toUInt8)
    rw [Sliced.specifiers, if_neg (by omega), Span.text?_eq (Span.within_content hstart hstop), Option.bind_eq_bind,
      Option.bind_some]
    simp only [Span.text] at hsplit ⊢
    rw [hsplit]
    generalize (((content.slice pos stop).findIdx? (· == (',' : Char).toUInt8)).map (pos + ·)).getD stop = next at hnext hle
    have hwithin : Span.Within ⟨pos, next⟩ ⟨0, content.length⟩ := Span.within_content hnext (hle.trans hstop)
    have hlength : (content.slice pos next).length = next - pos := slice_length hwithin.2.2
    have hfirst : ∀ s ∈ specifier? pos (content.slice pos next), s.Fits content ⟨pos, next⟩ :=
      fun s hs => specifier?_fits hwithin hs
    rw [Span.text?_eq hwithin, specifiersFrom, hlength, Nat.add_sub_cancel' hnext]
    generalize hrest : (if next < stop then Bytes.splitOn ',' (content.slice (next + 1) stop) else []) = rest
    have hlater : Sliced.specifiers content stop rounds (next + 1) = some (specifiersFrom (next + 1) rest) ∧
        Listed content ⟨next + 1, stop⟩ (specifiersFrom (next + 1) rest) := by
      by_cases hmore : next < stop
      · rw [if_pos hmore] at hrest
        rw [← hrest]
        exact ih (Span.within_content hmore hstop) (by omega)
      · rw [if_neg hmore] at hrest
        obtain ⟨rounds, rfl⟩ := Nat.exists_eq_succ_of_ne_zero (n := rounds) (by omega)
        rw [← hrest, Sliced.specifiers, if_pos (by omega)]
        exact ⟨rfl, fun s hs => absurd hs List.not_mem_nil, List.Pairwise.nil⟩
    obtain ⟨hspecs, hfits, hapart⟩ := hlater
    rw [hspecs]
    refine ⟨rfl, fun s hs => ?_, ?_⟩
    · obtain hs | hs := List.mem_append.mp hs
      · exact (hfirst s (Option.mem_toList.mp hs)).widen (Nat.le_refl _) hle
      · exact (hfits s hs).widen (by omega) (Nat.le_refl _)
    · refine List.pairwise_append.mpr ⟨?_, hapart, fun a ha b hb => ?_⟩
      · cases specifier? pos (content.slice pos next) with
        | none => exact List.Pairwise.nil
        | some s => exact List.pairwise_singleton ..
      · have hbefore := (hfirst a (Option.mem_toList.mp ha)).within.2.2
        have hbehind := (hfits b hb).within.1
        exact (hbefore.trans (Nat.le_succ next)).trans hbehind

namespace Sliced

/-- The marks of entries, with a slice for the edit of the one that becomes the row type. -/
def markSpecifiers (content : Bytes) : Bool → List Specifier → Option (Bool × List (Specifier × Bool) × List Change)
  | imported, [] => some (imported, [], [])
  | imported, s :: rest => do
    let old := rowComponents.contains s.text
    let (last, marked, changes) ← markSpecifiers content (imported || old) rest
    if old && !imported then
      let change ← Change.replaceSpan? content s.span rowTypeName
      return (last, (s, false) :: marked, change :: changes)
    else return (last, (s, old) :: marked, changes)

def removeSpecifiers (content : Bytes) (marked : List (Specifier × Bool)) : Option (List Change) :=
  let kept := marked.reverse.dropWhile (·.2)
  let inner := (marked.zip (marked.drop 1)).take (kept.length - 1)
  let innerChanges := (inner.filter (·.1.2)).mapM fun ((s, _), (next, _)) =>
    Change.replaceSpan? content ⟨s.span.start, next.span.start⟩ []
  match kept.head?, marked.getLast? with
  | some (lastKept, _), some (last, true) => do
    return (← innerChanges) ++
      (← (Change.replaceSpan? content ⟨lastKept.span.stop, last.span.stop⟩ []).map ([·]))
  | _, _ => innerChanges

def importEdits (content : Bytes) : Bool → List ImportDeclaration → Option (List Change)
  | _, [] => some []
  | imported, d :: rest => do
    let (imported, marked, changes) ← markSpecifiers content imported d.specifiers
    let removals := if !marked.isEmpty && marked.all (·.2) then (Change.replaceSpan? content d.span []).map ([·])
      else removeSpecifiers content marked
    return (← (do return (← some changes) ++ (← removals))) ++ (← importEdits content imported rest)

end Sliced

theorem markSpecifiers_yields {within : Span} (hwithin : within.Within ⟨0, content.length⟩) {specs : List Specifier}
    (h : ∀ s ∈ specs, s.Fits content within) (imported : Bool) :
    Sliced.markSpecifiers content imported specs = some (markSpecifiers imported specs) ∧
      (∀ c ∈ (markSpecifiers imported specs).2.2, c.InPlace content) ∧
      (markSpecifiers imported specs).2.1.map Prod.fst = specs := by
  induction specs generalizing imported with
  | nil => exact ⟨rfl, fun c hc => absurd hc List.not_mem_nil, rfl⟩
  | cons s rest ih =>
    obtain ⟨hs, hrest⟩ := List.forall_mem_cons.mp h
    obtain ⟨hsliced, hinPlace, hsame⟩ := ih hrest (imported || rowComponents.contains s.text)
    have hspan : s.span.Within ⟨0, content.length⟩ :=
      ⟨Nat.zero_le _, hs.within.2.1, hs.within.2.2.trans hwithin.2.2⟩
    have hmakes : Makes content (Change.replaceSpan? content s.span rowTypeName)
        (.replace s.span.start s.text rowTypeName) := by
      have hreplace := Makes.replaceSpan rowTypeName hspan
      rwa [Change.replaceSpan, hs.found] at hreplace
    rw [Sliced.markSpecifiers, markSpecifiers, hsliced]
    generalize markSpecifiers (imported || rowComponents.contains s.text) rest = marks at hinPlace hsame
    obtain ⟨last, marked, changes⟩ := marks
    dsimp only at hinPlace hsame ⊢
    rw [Option.bind_eq_bind, Option.bind_some]
    dsimp only
    split
    · rw [hmakes.sliced]
      exact ⟨rfl, List.forall_mem_cons.mpr ⟨hmakes.inPlace, hinPlace⟩, congrArg (s :: ·) hsame⟩
    · exact ⟨rfl, hinPlace, congrArg (s :: ·) hsame⟩

theorem rel_of_mem_zip_drop {α : Type} {R : α → α → Prop} {l : List α} (h : l.Pairwise R) {x : α × α}
    (hx : x ∈ l.zip (l.drop 1)) : x.1 ∈ l ∧ x.2 ∈ l ∧ R x.1 x.2 := by
  induction h with
  | nil => cases hx
  | cons hfirst hrest ih =>
    rename_i a rest
    cases rest with
    | nil => cases hx
    | cons b rest =>
      rw [List.drop_one, List.tail_cons, List.zip_cons_cons] at hx
      obtain rfl | hx := List.mem_cons.mp hx
      · exact ⟨List.mem_cons_self .., List.mem_cons_of_mem _ (List.mem_cons_self ..), hfirst b (List.mem_cons_self ..)⟩
      · obtain ⟨h1, h2, h3⟩ := ih hx
        exact ⟨List.mem_cons_of_mem _ h1, List.mem_cons_of_mem _ h2, h3⟩

theorem rel_getLast? {α : Type} {R : α → α → Prop} (hrefl : ∀ a, R a a) {l : List α} (h : l.Pairwise R) {x last : α}
    (hx : x ∈ l) (hlast : l.getLast? = some last) : R x last := by
  obtain ⟨front, rfl⟩ := List.getLast?_eq_some_iff.mp hlast
  obtain hx | hx := List.mem_append.mp hx
  · exact (List.pairwise_append.mp h).2.2 x hx last (List.mem_singleton_self _)
  · exact List.mem_singleton.mp hx ▸ hrefl _

theorem removeSpecifiers_yields {within : Span} (hwithin : within.Within ⟨0, content.length⟩)
    {marked : List (Specifier × Bool)} (h : Listed content within (marked.map Prod.fst)) :
    Yields content (Sliced.removeSpecifiers content marked) (removeSpecifiers content marked) := by
  have hfits : ∀ x ∈ marked, x.1.Fits content within := fun x hx => h.fits x.1 (List.mem_map_of_mem hx)
  have hapart := List.pairwise_map.mp h.apart
  have hstop : ∀ x ∈ marked, x.1.span.stop ≤ content.length :=
    fun x hx => (hfits x hx).within.2.2.trans hwithin.2.2
  have hinner : Yields content
      ((((marked.zip (marked.drop 1)).take ((marked.reverse.dropWhile (·.2)).length - 1)).filter (·.1.2)).mapM
        fun ((s, _), (next, _)) => Change.replaceSpan? content ⟨s.span.start, next.span.start⟩ [])
      ((((marked.zip (marked.drop 1)).take ((marked.reverse.dropWhile (·.2)).length - 1)).filter (·.1.2)).map
        fun ((s, _), (next, _)) => Change.deleteSpan content ⟨s.span.start, next.span.start⟩) := by
    apply Yields.map
    intro x hx
    obtain ⟨hthis, hnext, hbefore⟩ := rel_of_mem_zip_drop hapart (List.mem_of_mem_take (List.mem_filter.mp hx).1)
    apply Makes.replaceSpan
    apply Span.within_content
    · exact (hfits x.1 hthis).within.2.1.trans hbefore
    · exact (hfits x.2 hnext).within.2.1.trans (hstop x.2 hnext)
  unfold Sliced.removeSpecifiers removeSpecifiers
  dsimp only
  cases hkept : (marked.reverse.dropWhile (·.2)).head? with
  | none => exact hinner
  | some kept =>
    cases hlast : marked.getLast? with
    | none => exact hinner
    | some last =>
      obtain ⟨last, flag⟩ := last
      cases flag with
      | false => exact hinner
      | true =>
        apply hinner.append
        apply Makes.yields
        apply Makes.replaceSpan
        have hmem : kept ∈ marked :=
          List.mem_reverse.mp ((List.dropWhile_suffix _).subset (List.mem_of_head? hkept))
        have hends : marked.Pairwise fun a b => a.1.span.stop ≤ b.1.span.stop :=
          hapart.imp_of_mem fun _ hb hab => hab.trans (hfits _ hb).within.2.1
        have hle : kept.1.span.stop ≤ last.span.stop := by
          have hrefl (a : Specifier × Bool) : a.1.span.stop ≤ a.1.span.stop := Nat.le_refl _
          exact rel_getLast? hrefl hends hmem hlast
        exact Span.within_content hle (hstop _ (List.mem_of_getLast? hlast))

/-- An import whose range and entries are in the content. -/
structure ImportDeclaration.Stands (content : Bytes) (d : ImportDeclaration) : Prop where
  span : d.span.Within ⟨0, content.length⟩
  specifiers : Listed content ⟨0, content.length⟩ d.specifiers

theorem importEdits_yields {imports : List ImportDeclaration} (h : ∀ d ∈ imports, d.Stands content) (imported : Bool) :
    Yields content (Sliced.importEdits content imported imports) (importEdits content imported imports) := by
  induction imports generalizing imported with
  | nil => exact .nil
  | cons d rest ih =>
    obtain ⟨hd, hrest⟩ := List.forall_mem_cons.mp h
    have hwhole : Span.Within ⟨0, content.length⟩ ⟨0, content.length⟩ := Span.within_content (Nat.zero_le _) (Nat.le_refl _)
    obtain ⟨hsliced, hinPlace, hsame⟩ := markSpecifiers_yields hwhole hd.specifiers.fits imported
    rw [Sliced.importEdits, importEdits, hsliced]
    generalize markSpecifiers imported d.specifiers = marks at hinPlace hsame
    obtain ⟨last, marked, changes⟩ := marks
    dsimp only at hinPlace hsame ⊢
    rw [Option.bind_eq_bind, Option.bind_some]
    apply Yields.append _ (ih hrest last)
    apply Yields.append ⟨rfl, hinPlace⟩
    split
    · exact (Makes.replaceSpan [] hd.span).yields
    · apply removeSpecifiers_yields hwhole
      rw [hsame]
      exact hd.specifiers

/-- An import, with the place behind it. -/
def importPattern (_ : Option UInt8) (c : Cursor) : Option (ImportMatch × Nat) := (importAt? c).map fun m => (m, m.next.pos)

namespace Sliced

/-- The end of a declaration with its semicolon and line break, looked for behind an offset. -/
def declarationStop (content : Bytes) (stop : Nat) : Option Nat := do
  let closed ← byteAt (· == (';' : Char).toUInt8) content stop
  let stop := if closed then stop + 1 else stop
  let rest ← Span.text? ⟨stop, content.length⟩ content
  return if rest.startsWith "\r\n" then stop + 2 else if rest.startsWith "\n" then stop + 1 else stop

/-- The declaration that a match is about, if it is one of the library. -/
def declaration (content : Bytes) (start : Nat) (m : ImportMatch) : Option (Option ImportDeclaration) := do
  let module ← m.module.text? content
  if module.contains "igniteui-angular" then
    let stop ← declarationStop content m.next.pos
    let specs ← specifiers content m.list.stop (m.list.stop + 2) m.list.start
    return some ⟨⟨start, stop⟩, specs⟩
  else return none

def libraryImports (content : Bytes) : Option (List ImportDeclaration) :=
  ((scanMatches importPattern none 0 0 content).mapM fun x => declaration content x.1 x.2).map List.reduceOption

/-- The typings, each with a slice for the name that it replaces. -/
def typingEdits (content : Bytes) : Option (List Change) :=
  (scanMatches typingAt? none 0 0 content).mapM fun (_, c) =>
    Change.replaceSpan? content ⟨c.position.toNat, c.stop.toNat⟩ rowTypeName

def replaceRowTypes (content : Bytes) : Option (List Change) := do
  let imports ← libraryImports content
  if imports.isEmpty then return []
  else
    let imported := imports.any fun d => d.specifiers.any (·.text = rowTypeName)
    return (← importEdits content imported imports) ++ (← typingEdits content)

end Sliced

/-- What is optional is passed over if it is there. -/
theorem CursorIn.optional (h : CursorIn content c) (text : Bytes) :
    Advances content c ((c.literal? text).getD c) ∧
      ((c.literal? text).getD c).pos = if c.rest.startsWith text then c.pos + text.length else c.pos := by
  cases hnext : c.literal? text with
  | some next =>
    obtain ⟨hmoved, hpos, hprefix⟩ := h.literal hnext
    rw [← h.rest] at hprefix
    rw [Option.getD_some, if_pos (Bytes.startsWith_iff.mpr hprefix)]
    exact ⟨hmoved, hpos⟩
  | none =>
    unfold Cursor.literal? at hnext
    split at hnext
    · cases hnext
    · next hnot =>
      rw [Option.getD_none, if_neg hnot]
      exact ⟨⟨h, Nat.le_refl _⟩, rfl⟩

theorem declarationStop_eq (h : CursorIn content c) :
    Sliced.declarationStop content c.pos = some (declarationStop c) ∧ c.pos ≤ declarationStop c ∧
      declarationStop c ≤ content.length := by
  obtain ⟨hmoved, hpos⟩ := h.optional ";"
  have hclosed : (content[c.pos]?).any (· == (';' : Char).toUInt8) = c.rest.startsWith ";" := by
    rw [← List.head?_drop, ← h.rest]
    cases c.rest with
    | nil => rfl
    | cons b rest =>
      show (b == 59) = (59 == b && true)
      rw [Bool.and_true, Bool.eq_iff_iff, beq_iff_eq, beq_iff_eq, eq_comm]
  rw [Sliced.declarationStop, byteAt_eq, hclosed, Option.bind_eq_bind, Option.bind_some]
  unfold declarationStop
  dsimp only
  generalize (c.literal? (bytes ";")).getD c = c' at hmoved hpos
  have hstop : (if c.rest.startsWith ";" then c.pos + 1 else c.pos) = c'.pos := hpos.symm
  obtain ⟨hthere, hle⟩ := hmoved
  have hrest : Span.text? ⟨c'.pos, content.length⟩ content = some c'.rest := by
    rw [Span.text?_eq (Span.within_content hthere.pos (Nat.le_refl _)), hthere.rest, Span.text, Bytes.slice,
      List.take_length]
  obtain ⟨hreturn, hreturnPos⟩ := hthere.optional "\r\n"
  obtain ⟨hline, hlinePos⟩ := hthere.optional "\n"
  have hbreak : Advances content c' ((c'.literal? "\r\n").getD ((c'.literal? "\n").getD c')) ∧
      ((c'.literal? "\r\n").getD ((c'.literal? "\n").getD c')).pos =
        if c'.rest.startsWith "\r\n" then c'.pos + 2 else if c'.rest.startsWith "\n" then c'.pos + 1 else c'.pos := by
    unfold Cursor.literal? at hreturn hreturnPos ⊢
    by_cases hstarts : c'.rest.startsWith "\r\n" = true
    · rw [if_pos hstarts] at hreturn
      rw [if_pos hstarts, if_pos hstarts]
      exact ⟨hreturn, rfl⟩
    · rw [if_neg hstarts, if_neg hstarts]
      exact ⟨hline, hlinePos⟩
  generalize (c'.literal? (bytes "\r\n")).getD ((c'.literal? (bytes "\n")).getD c') = last at hbreak ⊢
  obtain ⟨hlast, hlastPos⟩ := hbreak
  rw [hstop, hrest]
  exact ⟨congrArg some hlastPos.symm, hle.trans hlast.le, hlast.there.pos⟩

/-- The import that a match is about, if it is one of the library. -/
def declaration? (content : Bytes) (start : Nat) (m : ImportMatch) : Option ImportDeclaration :=
  if (m.module.text content).contains "igniteui-angular" then
    some ⟨⟨start, declarationStop m.next⟩, specifiers content m.list⟩
  else none

theorem libraryImports_eq (content : Bytes) :
    libraryImports content =
      (scanMatches importPattern none 0 0 content).filterMap fun x => declaration? content x.1 x.2 := rfl

theorem declaration_eq {start : Nat} {m : ImportMatch} (h : CursorIn content ⟨start, content.drop start⟩)
    (hm : importAt? ⟨start, content.drop start⟩ = some m) :
    Sliced.declaration content start m = some (declaration? content start m) ∧
      ∀ d ∈ declaration? content start m, d.Stands content := by
  obtain ⟨hlist, hmodule, hnext⟩ := h.importAt hm
  have hlast := hnext.there.pos
  have hlistWithin : m.list.Within ⟨0, content.length⟩ := Span.within_content hlist.2.1 (hlist.2.2.trans hlast)
  have hmoduleWithin : m.module.Within ⟨0, content.length⟩ := Span.within_content hmodule.2.1 (hmodule.2.2.trans hlast)
  obtain ⟨hstop, hle, hlength⟩ := declarationStop_eq hnext.there
  have hrounds : m.list.stop + 1 - m.list.start < m.list.stop + 2 := by omega
  obtain ⟨hspecs, hfits, hapart⟩ := sliced_specifiers hlistWithin hrounds
  rw [Sliced.declaration, Span.text?_eq hmoduleWithin, declaration?, specifiers_eq, hstop, hspecs]
  rw [Option.bind_eq_bind, Option.bind_some]
  split
  · refine ⟨rfl, fun d hd => ?_⟩
    cases hd
    refine ⟨Span.within_content (hnext.le.trans hle) hlength, fun s hs => ?_, hapart⟩
    exact (hfits s hs).widen (Nat.zero_le _) hlistWithin.2.2
  · exact ⟨rfl, fun d hd => absurd hd (by simp)⟩

theorem libraryImports_sliced (content : Bytes) :
    Sliced.libraryImports content = some (libraryImports content) ∧ ∀ d ∈ libraryImports content, d.Stands content := by
  have hmatch : ∀ x ∈ scanMatches importPattern none 0 0 content,
      Sliced.declaration content x.1 x.2 = some (declaration? content x.1 x.2) ∧
        ∀ d ∈ declaration? content x.1 x.2, d.Stands content := by
    intro x hx
    obtain ⟨before, stop, hthere, hpattern⟩ := exists_of_mem_scanMatches 0 hx
    obtain ⟨m, hm, heq⟩ := Option.map_eq_some_iff.mp hpattern
    cases heq
    exact declaration_eq hthere hm
  constructor
  · rw [Sliced.libraryImports, mapM_eq_some fun x hx => (hmatch x hx).1, libraryImports_eq, Option.map_some]
    exact congrArg some (List.filterMap_map ..)
  · intro d hd
    rw [libraryImports_eq] at hd
    obtain ⟨x, hx, hd⟩ := List.mem_filterMap.mp hd
    exact (hmatch x hx).2 d hd

theorem typing_replaces {previous : Option UInt8} (h : CursorIn content c) {change : Change} {stop : Nat}
    (hfound : typingAt? previous c = some (change, stop)) :
    ∃ pos old, old ∈ rowComponents ∧ change = .replace pos old rowTypeName ∧ old <+: content.drop pos := by
  have hname {name next : Cursor} {old : Bytes} (hthere : CursorIn content name)
      (hold : rowComponentAt? name = some (old, next)) : old ∈ rowComponents ∧ old <+: content.drop name.pos := by
    obtain ⟨listed, hlisted, hread⟩ := List.exists_of_findSome?_eq_some hold
    obtain ⟨next, hnext, heq⟩ := Option.map_eq_some_iff.mp hread
    cases heq
    exact ⟨hlisted, (hthere.literal hnext).2.2⟩
  have heither {a b : Option (Change × Nat)} {x : Change × Nat} (h : (a <|> b) = some x) : a = some x ∨ b = some x := by
    cases a with
    | none => exact .inr h
    | some y => exact .inl h
  unfold typingAt? at hfound
  obtain hcast | hannotation := heither hfound
  · obtain ⟨-, -, hcast⟩ := Option.bind_eq_some_iff.mp hcast
    obtain ⟨name, hblank, hcast⟩ := Option.bind_eq_some_iff.mp hcast
    obtain ⟨⟨old, next⟩, hold, hcast⟩ := Option.bind_eq_some_iff.mp hcast
    obtain ⟨-, -, hcast⟩ := Option.bind_eq_some_iff.mp hcast
    obtain ⟨word, hword, hblank⟩ := Option.bind_eq_some_iff.mp hblank
    cases hcast
    obtain ⟨hmem, hprefix⟩ := hname ((h.literal hword).1.there.skipBlank hblank).there hold
    exact ⟨name.pos, old, hmem, rfl, hprefix⟩
  · obtain ⟨colon, hcolon, hannotation⟩ := Option.bind_eq_some_iff.mp hannotation
    obtain ⟨⟨old, next⟩, hold, hannotation⟩ := Option.bind_eq_some_iff.mp hannotation
    obtain ⟨-, -, hannotation⟩ := Option.bind_eq_some_iff.mp hannotation
    cases hannotation
    obtain ⟨hmem, hprefix⟩ := hname ((h.literal hcolon).1.there.skip isSpace).there hold
    exact ⟨_, old, hmem, rfl, hprefix⟩

/-- An old name is a word with a capital first letter, which does not stand in its last eight ones as a small one. -/
theorem spelling_of_old {old : Bytes} (hold : old ∈ rowComponents) : old[0]? = some ('I' : Char).toUInt8 ∧
    old.all Bytes.isLetter = true ∧ ('i' : Char).toUInt8 ∉ old.drop (old.length - 8) ∧
    (Text.firstChar? old).isSome = true := by
  have hall : ∀ old ∈ rowComponents, old[0]? = some ('I' : Char).toUInt8 ∧ old.all Bytes.isLetter = true ∧
      ('i' : Char).toUInt8 ∉ old.drop (old.length - 8) ∧ (Text.firstChar? old).isSome = true := by decide +kernel
  exact hall old hold

theorem ne_nil_of_old {old : Bytes} (hold : old ∈ rowComponents) : old ≠ [] := by
  rintro rfl
  cases (spelling_of_old hold).1

theorem typingEdits_yields (content : Bytes) : Yields content (Sliced.typingEdits content) (typingEdits content) := by
  apply Yields.map
  intro x hx
  obtain ⟨before, stop, hthere, hpattern⟩ := exists_of_mem_scanMatches 0 hx
  obtain ⟨pos, old, hold, heq, hprefix⟩ := typing_replaces hthere hpattern
  have hspan : (x.2.position.toNat, x.2.stop.toNat) = (pos, pos + old.length) := by
    rw [heq]
    have hstop : (Change.replace pos old rowTypeName).stop.toNat = pos + old.length := by
      show ((pos : Int) + old.length).toNat = pos + old.length
      omega
    rw [hstop]
    rfl
  obtain ⟨hpos, hstop⟩ := Prod.mk.inj hspan
  dsimp only
  rw [hpos, hstop, heq]
  exact makes_replace (ne_nil_of_old hold) hprefix

theorem replaceRowTypes_yields (content : Bytes) :
    Yields content (Sliced.replaceRowTypes content) (replaceRowTypes content) := by
  obtain ⟨hsliced, hstands⟩ := libraryImports_sliced content
  rw [Sliced.replaceRowTypes, replaceRowTypes, hsliced, Option.bind_eq_bind, Option.bind_some]
  cases himports : libraryImports content with
  | nil => exact .nil
  | cons d rest =>
    rw [himports] at hstands
    exact (importEdits_yields hstands _).append (typingEdits_yields content)

end Imports

/-- The rules of the release, in three kinds. -/
inductive BuiltIn where
  | template (rule : TemplateRule)
  | selectors (f : Family)
  | rowTypes

namespace BuiltIn

def kind : BuiltIn → Workspace.Kind
  | template _ => .template
  | selectors _ => .style
  | rowTypes => .source

def edits : BuiltIn → Migration.Context → List Change
  | template rule, c =>
    match c.document with
    | some d => rule.edits d c.touched
    | none => []
  | selectors f, c => renameSelectors f c.content
  | rowTypes, c => replaceRowTypes c.content

/-- The edits of a rule, unless one of its slices is out of bounds. -/
def sliced : BuiltIn → Migration.Context → Option (List Change)
  | template rule, c =>
    match c.document with
    | some d => rule.sliced d c.touched
    | none => some []
  | selectors f, c => Sliced.renameSelectors f c.content
  | rowTypes, c => Sliced.replaceRowTypes c.content

end BuiltIn

/-- The rules in the order in which they run. -/
def builtIns : List BuiltIn :=
  [.template .alignment] ++
    (families.flatMap fun f =>
      [.template (.wrap f), .template (.headers f), .template (.panels f), .template (.review f), .selectors f]) ++
    [.rowTypes] ++ editors.map fun editor => .template (.inputs editor)

/-- They are the stages of the release. -/
theorem stages_builtIns : stages.map (fun stage => (stage.rule.kind, stage.rule.apply)) =
    builtIns.map fun rule => (rule.kind, fun c => ⟨.ok (rule.edits c), false⟩) := by
  rfl

/-- Each stage has its rule, at the same place of the list. -/
theorem exists_builtIn {stage : Migration.Stage} (hstage : stage ∈ stages) :
    ∃ rule, (stage, rule) ∈ stages.zip builtIns ∧ rule ∈ builtIns ∧ stage.rule.kind = rule.kind ∧
      stage.rule.apply = fun c => ⟨.ok (rule.edits c), false⟩ := by
  obtain ⟨i, hi⟩ := List.mem_iff_getElem?.mp hstage
  have hrule := congrArg (·[i]?) stages_builtIns
  simp only [List.getElem?_map, hi, Option.map_some] at hrule
  obtain ⟨rule, hat, heq⟩ := Option.map_eq_some_iff.mp hrule.symm
  obtain ⟨hkind, happly⟩ := Prod.mk.inj heq
  exact ⟨rule, List.mem_iff_getElem?.mpr ⟨i, List.getElem?_zip_eq_some.mpr ⟨hi, hat⟩⟩, List.mem_of_getElem? hat,
    hkind.symm, happly.symm⟩

theorem BuiltIn.yields {rule : BuiltIn} (hrule : rule ∈ builtIns) (c : Migration.Context)
    (hdocument : rule.kind = .template → ∃ d, Document.parse c.path c.content = .ok d ∧ c.document = some d) :
    Yields c.content (rule.sliced c) (rule.edits c) := by
  cases rule with
  | template rule =>
    obtain ⟨d, hparse, hd⟩ := hdocument rfl
    obtain ⟨s, hs, hcontent⟩ := exists_reading hparse
    have hyields := rule.yields hs c.touched
    rw [hcontent] at hyields
    rw [sliced, edits, hd]
    exact hyields
  | selectors f =>
    have hf : f ∈ families := by simpa [builtIns, editors] using hrule
    exact renameSelectors_yields hf c.content
  | rowTypes => exact replaceRowTypes_yields c.content

/-- No rule of the release slices a file out of bounds or fails, and the edits of each fit the file: they pass
validation, and each replacement removes what stands at its range. -/
theorem edits_of_stage {stage : Migration.Stage} (hstage : stage ∈ stages) (c : Migration.Context)
    (hdocument : stage.rule.kind = .template → ∃ d, Document.parse c.path c.content = .ok d ∧ c.document = some d) :
    ∃ rule changes, (stage, rule) ∈ stages.zip builtIns ∧ (stage.rule.apply c).edits = .ok changes ∧
      rule.sliced c = some changes ∧ validate changes c.content.length = .ok () ∧
      ∀ change ∈ changes, change.mode = .replace →
        c.content.slice change.position.toNat change.stop.toNat = change.remove := by
  obtain ⟨rule, hzip, hrule, hkind, happly⟩ := exists_builtIn hstage
  rw [hkind] at hdocument
  obtain ⟨hsliced, hinPlace⟩ := rule.yields hrule c hdocument
  refine ⟨rule, rule.edits c, hzip, ?_, hsliced, validate_of_inPlace hinPlace, fun change hchange => ?_⟩
  · rw [happly]
  · exact (hinPlace change hchange).found

/-- A self-closing picker that loses a mode and a label, with blanks in front of both. -/
theorem edits_of_stage_picker :
    let content : Bytes := "<igx-date-picker  mode='dropdown'\tlabel=a />"
    ∃ stage ∈ stages, ∃ d, Document.parse "a.html" content = .ok d ∧
      ∃ rule changes, (stage, rule) ∈ stages.zip builtIns ∧
        (stage.rule.apply ⟨"a.html", content, some d, true, false⟩).edits = .ok changes ∧
        rule.sliced ⟨"a.html", content, some d, true, false⟩ = some changes ∧
        validate changes content.length = .ok () ∧
        ∀ change ∈ changes, change.mode = .replace →
          content.slice change.position.toNat change.stop.toNat = change.remove := by
  intro content
  have hparses : (Document.parse "a.html" content).toOption.isSome = true := by decide +kernel
  cases hparse : Document.parse "a.html" content with
  | error e =>
    rw [hparse] at hparses
    cases hparses
  | ok d =>
    have hstage : stages[12] ∈ stages := List.getElem_mem _
    exact ⟨stages[12], hstage, d, rfl, edits_of_stage hstage ⟨"a.html", content, some d, true, false⟩
      fun _ => ⟨d, hparse, rfl⟩⟩

end Release12

end Codemod
