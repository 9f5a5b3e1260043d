import Codemod.Proofs.Markup.Rendered
import Mathlib

namespace Codemod.Markup

/-- The first index from `lo` on at which `p` holds, found by halving, or `hi` if there is none below it. What holds
at one index has to hold at the later ones. -/
def bisect (p : Nat → Bool) (lo hi : Nat) : Nat :=
  if lo < hi then
    if p ((lo + hi) / 2) then bisect p lo ((lo + hi) / 2) else bisect p ((lo + hi) / 2 + 1) hi
  else lo
termination_by hi - lo

/-- The halves keep the boundary between them. -/
theorem bisect_eq {p : Nat → Bool} {lo k hi : Nat} (hlo : lo ≤ k) (hhi : k ≤ hi)
    (hbelow : ∀ i < k, p i = false) (habove : ∀ i, k ≤ i → i < hi → p i = true) : bisect p lo hi = k := by
  fun_induction bisect p lo hi with
  | case1 lo hi hlt hmid ih =>
    have hk : k ≤ (lo + hi) / 2 := by
      by_contra hk
      rw [hbelow _ (by omega)] at hmid
      cases hmid
    exact ih hlo hk fun i hi hlt' => habove i hi (by omega)
  | case2 lo hi hlt hmid ih =>
    have hk : (lo + hi) / 2 < k := by
      by_contra hk
      exact hmid (habove _ (by omega) (by omega))
    exact ih hk hhi habove
  | case3 lo hi hge => omega

section Line

variable {content : Bytes} {o : Nat}

/-- The line of an offset begins just after the last newline before it, or at zero if there is none. -/
inductive BeginsLine (content : Bytes) (o : Nat) : Nat → Prop
  | first (hnone : ∀ j < o, content[j]? ≠ some '\n') : BeginsLine content o 0
  | afterNewline {i : Nat} (hi : i < o) (hnewline : content[i]? = some '\n')
      (hlast : ∀ j, i < j → j < o → content[j]? ≠ some '\n') : BeginsLine content o (i + 1)

theorem BeginsLine.le {start : Nat} (h : BeginsLine content o start) : start ≤ o := by
  cases h with
  | first => exact Nat.zero_le _
  | afterNewline hi => exact hi

theorem BeginsLine.of_newline (h : content[o]? = some '\n') : BeginsLine content (o + 1) (o + 1) :=
  .afterNewline (Nat.lt_succ_self o) h fun j hj hj' => by omega

/-- A line goes on with any other byte. -/
theorem BeginsLine.succ {start : Nat} (h : BeginsLine content o start) (hbyte : content[o]? ≠ some '\n') :
    BeginsLine content (o + 1) start := by
  cases h with
  | first hnone =>
    refine .first fun j hj => ?_
    obtain hj | rfl := Nat.lt_succ_iff_lt_or_eq.mp hj
    · exact hnone j hj
    · exact hbyte
  | afterNewline hi hnewline hlast =>
    refine .afterNewline (Nat.lt_succ_of_lt hi) hnewline fun j hij hj => ?_
    obtain hj | rfl := Nat.lt_succ_iff_lt_or_eq.mp hj
    · exact hlast j hij hj
    · exact hbyte

end Line

/-- The place behind one more byte. -/
def Position.next (p : Position) (c : UInt8) : Position :=
  if c = '\n' then ⟨p.line + 1, 1⟩ else ⟨p.line, p.column + 1⟩

/-- Lines first, and columns within a line. -/
def Position.key (p : Position) : Nat ×ₗ Nat := toLex (p.line, p.column)

theorem Position.key_lt_next (p : Position) (c : UInt8) : p.key < (p.next c).key := by
  rw [key, key, Prod.Lex.toLex_lt_toLex, next]
  split_ifs with hc
  · exact .inl (Nat.lt_succ_self _)
  · exact .inr ⟨rfl, Nat.lt_succ_self _⟩

section Table

theorem newlineStops_append (start : Nat) (s t : Bytes) :
    newlineStops start (s ++ t) = newlineStops start s ++ newlineStops (start + s.length) t := by
  induction s generalizing start with
  | nil => rfl
  | cons c s ih =>
    have hlen : start + 1 + s.length = start + (c :: s).length := by rw [List.length_cons]; omega
    rw [List.cons_append, newlineStops, newlineStops, ih, hlen]
    split_ifs <;> rfl

theorem lt_of_mem_newlineStops {start x : Nat} {s : Bytes} (hx : x ∈ newlineStops start s) : start < x := by
  induction s generalizing start with
  | nil => cases hx
  | cons c s ih =>
    have htail (hx : x ∈ newlineStops (start + 1) s) : start < x := Nat.lt_of_succ_lt (ih hx)
    rw [newlineStops] at hx
    split_ifs at hx
    · obtain rfl | hx := List.mem_cons.mp hx
      · exact Nat.lt_succ_self _
      · exact htail hx
    · exact htail hx

theorem pairwise_newlineStops (start : Nat) (s : Bytes) : (newlineStops start s).Pairwise (· < ·) := by
  induction s generalizing start with
  | nil => exact .nil
  | cons c s ih =>
    rw [newlineStops]
    split_ifs
    · exact .cons (fun _ hx => lt_of_mem_newlineStops hx) (ih _)
    · exact ih _

/-- The table is increasing. -/
theorem pairwise_lineStarts (content : Bytes) : (lineStarts content).Pairwise (· < ·) :=
  .cons (fun _ hx => lt_of_mem_newlineStops hx) (pairwise_newlineStops 0 content)

theorem takeWhile_newlineStops (start n : Nat) (s : Bytes) :
    (newlineStops start s).takeWhile (· ≤ start + n) = newlineStops start (s.take n) := by
  induction s generalizing start n with
  | nil => rw [List.take_nil]; rfl
  | cons c s ih =>
    cases n with
    | zero =>
      rw [List.take_zero, newlineStops, List.takeWhile_eq_nil_iff]
      intro hl
      have hmem := lt_of_mem_newlineStops (List.get_mem (newlineStops start (c :: s)) ⟨0, hl⟩)
      simpa using hmem
    | succ n =>
      have hshift : start + (n + 1) = start + 1 + n := by omega
      rw [List.take_succ_cons, newlineStops, newlineStops, hshift]
      split_ifs
      · rw [List.takeWhile_cons_of_pos (by simp), ih]
      · exact ih _ _

/-- The lines begun up to an offset are those that the text before it begins. -/
theorem startsUpTo_eq (content : Bytes) (o : Nat) : startsUpTo content o = lineStarts (content.take o) := by
  have hstops := takeWhile_newlineStops 0 o content
  rw [Nat.zero_add] at hstops
  rw [startsUpTo, lineStarts, List.takeWhile_cons_of_pos (by simp), hstops, lineStarts]

theorem length_newlineStops (start : Nat) (s : Bytes) : (newlineStops start s).length = s.count ('\n' : UInt8) := by
  induction s generalizing start with
  | nil => rfl
  | cons c s ih =>
    rw [newlineStops, List.count_cons]
    split_ifs
    · rw [List.length_cons, ih]
    · exact ih _

theorem length_startsUpTo (content : Bytes) (o : Nat) :
    (startsUpTo content o).length = 1 + (content.take o).count ('\n' : UInt8) := by
  rw [startsUpTo_eq, lineStarts, List.length_cons, length_newlineStops, Nat.add_comm]

theorem startsUpTo_succ {content : Bytes} {o : Nat} (ho : o < content.length) :
    startsUpTo content (o + 1) = startsUpTo content o ++ if content[o] = '\n' then [o + 1] else [] := by
  have hlen : 0 + (content.take o).length = o := by rw [List.length_take]; omega
  rw [startsUpTo_eq, startsUpTo_eq, List.take_succ_eq_append_getElem ho, lineStarts, lineStarts,
    newlineStops_append, hlen, List.cons_append, newlineStops, newlineStops]
  simp only [beq_iff_eq]

/-- In an increasing table the entries up to a bound stand in front. -/
theorem getElem_le_iff {table : List Nat} (htable : table.Pairwise (· < ·)) (o : Nat) {i : Nat} (hi : i < table.length) :
    table[i] ≤ o ↔ i < (table.takeWhile (· ≤ o)).length := by
  induction htable generalizing i with
  | nil => cases hi
  | @cons a table hlt _ ih =>
    by_cases ha : a ≤ o
    · rw [List.takeWhile_cons_of_pos (by simpa using ha), List.length_cons]
      cases i with
      | zero => simpa using ha
      | succ i => simpa using ih (i := i) (by simpa using hi)
    -- the first entry is too large already, and the others are larger
    · rw [List.takeWhile_cons_of_neg (by simpa using ha)]
      have hle : a ≤ (a :: table)[i] := by
        obtain heq | hmem := List.mem_cons.mp (List.getElem_mem hi)
        · exact heq.ge
        · exact (hlt _ hmem).le
      simp only [List.length_nil, Nat.not_lt_zero, iff_false]
      omega

end Table

section Offset

variable {content : Bytes} {o : Nat}

theorem clamp_natCast (ho : o ≤ content.length) : clamp content o = o := by
  rw [clamp, Int.toNat_natCast, Nat.min_eq_left ho]

/-- An offset before the content counts as its beginning, and one behind it as its end. -/
theorem clamp_eq (content : Bytes) (offset : Int) :
    (clamp content offset : Int) = max 0 (min offset content.length) := by
  rw [clamp]
  omega

theorem clamp_le (content : Bytes) (offset : Int) : clamp content offset ≤ content.length := Nat.min_le_right _ _

theorem lineStart_clamp (content : Bytes) (offset : Int) :
    lineStart content offset = lineStart content (clamp content offset) := by
  rw [lineStart, lineStart, clamp_natCast (clamp_le content offset)]

theorem lineStart_zero (content : Bytes) : lineStart content (0 : Nat) = 0 := by
  rw [lineStart, clamp_natCast (Nat.zero_le _), startsUpTo_eq]
  rfl

/-- Only a newline begins another line. -/
theorem lineStart_succ (ho : o < content.length) :
    lineStart content (o + 1 : Nat) = if content[o] = '\n' then o + 1 else lineStart content o := by
  rw [lineStart, lineStart, clamp_natCast ho, clamp_natCast ho.le, startsUpTo_succ ho]
  split_ifs
  · rw [List.getLast?_append]
    rfl
  · rw [List.append_nil]

theorem beginsLine_lineStart (ho : o ≤ content.length) : BeginsLine content o (lineStart content o) := by
  induction o with
  | zero =>
    rw [lineStart_zero]
    exact .first fun j hj => absurd hj (Nat.not_lt_zero j)
  | succ o ih =>
    have hbyte : content[o]? = some content[o] := List.getElem?_eq_getElem ho
    rw [lineStart_succ ho]
    split_ifs with hnewline
    · exact .of_newline (hbyte.trans (congrArg some hnewline))
    · refine (ih (Nat.le_of_succ_le ho)).succ ?_
      rw [hbyte]
      exact fun h => hnewline (Option.some.inj h)

theorem position_natCast (ho : o ≤ content.length) :
    position content o = ⟨(startsUpTo content o).length, o - lineStart content o + 1⟩ := by
  rw [position, clamp_natCast ho]

/-- A byte further, a newline begins the next line, and any other byte is a column. -/
theorem position_succ (ho : o < content.length) :
    position content (o + 1 : Nat) = (position content o).next content[o] := by
  have hle : lineStart content o ≤ o := (beginsLine_lineStart ho.le).le
  rw [position_natCast ho, position_natCast ho.le, lineStart_succ ho, startsUpTo_succ ho, Position.next]
  split_ifs
  · rw [List.length_append, List.length_singleton, Nat.sub_self]
  · rw [List.append_nil, Nat.succ_sub hle]

end Offset

/-- The line number is where a search by halves finds the first line that begins behind an offset. -/
theorem bisect_lineStarts (content : Bytes) (offset : Int) :
    bisect (fun i => clamp content offset < (lineStarts content).getD i 0) 0 (lineStarts content).length =
      (position content offset).line := by
  set o := clamp content offset with ho
  have hsplit (i : Nat) (hi : i < (lineStarts content).length) :
      (lineStarts content).getD i 0 ≤ o ↔ i < (position content offset).line := by
    rw [List.getD_eq_getElem?_getD, List.getElem?_eq_getElem hi, Option.getD_some]
    exact getElem_le_iff (pairwise_lineStarts content) o hi
  have hline : (position content offset).line ≤ (lineStarts content).length :=
    (List.takeWhile_sublist _).length_le
  refine bisect_eq (Nat.zero_le _) hline (fun i hi => ?_) fun i hi hlt => ?_
  · exact decide_eq_false (Nat.not_lt.mpr ((hsplit i (hi.trans_le hline)).mpr hi))
  · exact decide_eq_true (Nat.lt_of_not_le fun hle => absurd ((hsplit i hlt).mp hle) (Nat.not_lt.mpr hi))

/-- A line begins where the table says for its number. -/
theorem getElem?_lineStarts (content : Bytes) (offset : Int) :
    (lineStarts content)[(position content offset).line - 1]? = some (lineStart content offset) := by
  set starts := startsUpTo content (clamp content offset) with hstarts
  have hline : (position content offset).line = starts.length := rfl
  have hlast : starts.length - 1 < starts.length := by
    rw [hstarts, length_startsUpTo]
    omega
  have hparts : starts ++ (lineStarts content).dropWhile (· ≤ clamp content offset) = lineStarts content :=
    List.takeWhile_append_dropWhile
  rw [hline, ← hparts, List.getElem?_append_left hlast, List.getElem?_eq_getElem hlast, lineStart, ← hstarts,
    List.getLast?_eq_getElem?, List.getElem?_eq_getElem hlast, Option.getD_some]

theorem strictMonoOn_position (content : Bytes) :
    StrictMonoOn (fun offset : Int => (position content offset).key) (Set.Icc 0 content.length) := by
  refine strictMonoOn_of_lt_add_one Set.ordConnected_Icc fun offset _ hoffset hnext => ?_
  lift offset to Nat using hoffset.1
  have hlt : offset < content.length := by exact_mod_cast hnext.2
  have hsucc : position content ((offset : Int) + 1) = (position content offset).next content[offset] :=
    position_succ hlt
  rw [hsucc]
  exact Position.key_lt_next _ _

section Error

/-- All open elements have start tags of a kind. -/
def Forest.All (P : StartTag → Prop) (f : Forest) : Prop := ∀ x ∈ f.pending, P x.tag

namespace Forest

variable {P : StartTag → Prop} {f g : Forest}

theorem All.addChild (h : f.All P) (e : Element) : (f.addChild e).All P := by
  obtain ⟨roots, pending⟩ := f
  cases pending with
  | nil => exact h
  | cons top rest =>
    intro x hx
    obtain rfl | hx := List.mem_cons.mp hx
    · exact h top (List.mem_cons_self ..)
    · exact h x (List.mem_cons_of_mem _ hx)

theorem All.close (h : f.All P) (endTag : Option Span) (stop : Nat) : (f.close endTag stop).All P := by
  obtain ⟨roots, pending⟩ := f
  cases pending with
  | nil => exact h
  | cons top rest =>
    have hrest : All P ⟨roots, rest⟩ := fun x hx => h x (List.mem_cons_of_mem _ hx)
    exact hrest.addChild _

theorem All.closeEach {α : Type} (h : f.All P) (inner : List α) (stop : Nat) :
    (inner.foldl (fun f _ => f.close none stop) f).All P := by
  induction inner generalizing f with
  | nil => exact h
  | cons _ inner ih => exact ih (h.close none stop)

theorem All.start (h : f.All P) {tag : StartTag} (htag : P tag) : (f.start tag).All P := by
  rw [start_eq]
  set left := if f.names.head?.any (closesImplicitly · tag.name) then f.close none tag.span.start else f with hleft
  have hall : left.All P := by
    rw [hleft]
    split_ifs
    · exact h.close _ _
    · exact h
  split_ifs
  · exact hall.addChild _
  · intro x hx
    obtain rfl | hx := List.mem_cons.mp hx
    · exact htag
    · exact hall x hx

theorem All.finish (h : f.All P) {name : Bytes} {endTag : Span} (hfinish : f.finish name endTag = .ok g) : g.All P := by
  unfold Forest.finish at hfinish
  dsimp only at hfinish
  split_ifs at hfinish
  · cases hfinish
    exact h
  · split at hfinish
    · cases hfinish
    · cases hfinish
      exact (h.closeEach _ _).close _ _

/-- A token opens an element that begins with it, or none. -/
theorem All.add (h : f.All P) {t : Token} (ht : ∀ tag : StartTag, tag.span.start = t.start → P tag)
    (hadd : f.add t = .ok g) : g.All P := by
  unfold Forest.add at hadd
  split at hadd
  · cases hadd
    exact h
  · cases hadd
    exact h
  · cases hadd
    exact h.start (ht _ rfl)
  · cases hfinish : f.finish (endTagName t.raw) ⟨t.start, t.stop⟩ with
    | error reason =>
      rw [hfinish] at hadd
      cases hadd
    | ok next =>
      rw [hfinish] at hadd
      cases hadd
      exact h.finish hfinish
  · cases hadd

/-- A token that does not fit is at fault itself. -/
theorem offset_of_add {t : Token} {reason : Malformed} {offset : Nat} (h : f.add t = .error (reason, offset)) :
    offset = t.start := by
  unfold Forest.add at h
  split at h
  · cases h
  · cases h
  · cases h
  · cases hfinish : f.finish (endTagName t.raw) ⟨t.start, t.stop⟩ with
    | error reason =>
      rw [hfinish] at h
      cases h
      rfl
    | ok next =>
      rw [hfinish] at h
      cases h
  · cases h
    rfl

theorem offset_of_complete {n stop : Nat} (h : f.All (·.span.start < n)) {reason : Malformed} {offset : Nat}
    (hcomplete : f.complete stop = .error (reason, offset)) : offset < n := by
  unfold Forest.complete at hcomplete
  split at hcomplete
  · next left hfind =>
    cases hcomplete
    exact h left (List.mem_reverse.mp (List.mem_of_find?_eq_some hfind))
  · cases hcomplete

/-- What is read of tokens that begin before an offset is at fault before it. -/
theorem offset_of_read {n stop : Nat} {ts : List Token} (hts : ∀ t ∈ ts, t.start < n) (h : f.All (·.span.start < n))
    {reason : Malformed} {offset : Nat} (herror : ts.foldlM add f >>= (complete · stop) = .error (reason, offset)) :
    offset < n := by
  induction ts generalizing f with
  | nil => exact offset_of_complete h herror
  | cons t ts ih =>
    have ht : t.start < n := hts t (List.mem_cons_self ..)
    rw [List.foldlM_cons] at herror
    cases hadd : f.add t with
    | error fault =>
      rw [hadd] at herror
      cases herror
      rw [offset_of_add hadd]
      exact ht
    | ok g =>
      rw [hadd] at herror
      exact ih (fun t ht => hts t (List.mem_cons_of_mem _ ht)) (h.add (fun tag htag => htag ▸ ht) hadd) herror

end Forest

theorem start_lt_of_mem_tokensFrom {within : Option Bytes} {c : Cursor} {t : Token} (ht : t ∈ tokensFrom within c) :
    t.start < c.pos + c.rest.length := by
  fun_induction tokensFrom within c with
  | case1 => cases ht
  | case2 within c x r h rawLength scanned extra ih =>
    rw [h, List.length_cons]
    obtain rfl | ht := List.mem_cons.mp ht
    · dsimp only
      omega
    · have hrest := ih ht
      simp only [List.length_drop, List.length_take] at hrest
      omega

/-- What is wrong with a template stands within it, and its line and column are those of that offset. -/
theorem position_of_error {path content : Bytes} {e : ParseError} (h : Document.parse path content = .error e) :
    e.offset < content.length ∧ e.position = position content e.offset := by
  unfold Document.parse at h
  split at h
  · cases h
  · next reason offset hread =>
    cases h
    have hts (t : Token) (ht : t ∈ tokens content) : t.start < content.length := by
      have hlt := start_lt_of_mem_tokensFrom ht
      rwa [Nat.zero_add] at hlt
    exact ⟨Forest.offset_of_read hts (fun _ hx => absurd hx List.not_mem_nil) hread, rfl⟩

end Error

/-- Lines count the newlines before an offset, and columns the bytes since the last of them, both from one; an offset
outside the content counts as its nearest end. A search by halves of the table of line starts finds the same line, and
the table its start. Of two offsets in the content the later one has the later line or, in the same line, the later
column; so the place that is told with what is wrong with a template is the place of one offset alone. -/
theorem position_counts (content : Bytes) :
    (∀ offset : Int, ∃ o : Nat, (o : Int) = max 0 (min offset content.length) ∧
      (position content offset).line = 1 + (content.take o).count ('\n' : UInt8) ∧
      ((position content offset).column : Int) = o - lineStart content offset + 1 ∧
      BeginsLine content o (lineStart content offset) ∧
      (position content offset).line =
        bisect (fun i => o < (lineStarts content).getD i 0) 0 (lineStarts content).length ∧
      (lineStarts content)[(position content offset).line - 1]? = some (lineStart content offset)) ∧
    Set.InjOn (position content) (Set.Icc 0 content.length) ∧
    StrictMonoOn (fun offset : Int => (position content offset).key) (Set.Icc 0 content.length) ∧
    ∀ path e, Document.parse path content = .error e →
      e.offset < content.length ∧ e.position = position content e.offset := by
  have hmono := strictMonoOn_position content
  refine ⟨fun offset => ⟨clamp content offset, clamp_eq content offset, ?_, ?_, ?_, ?_, ?_⟩, ?_, hmono, ?_⟩
  · exact length_startsUpTo content _
  · have hbegins := beginsLine_lineStart (clamp_le content offset)
    rw [← lineStart_clamp] at hbegins
    have hle := hbegins.le
    rw [position]
    push_cast [hle]
    rfl
  · rw [lineStart_clamp]
    exact beginsLine_lineStart (clamp_le content offset)
  · exact (bisect_lineStarts content offset).symm
  · exact getElem?_lineStarts content offset
  · exact fun a ha b hb h => hmono.injOn ha hb (congrArg Position.key h)
  · exact fun path e h => position_of_error h

/-- A tag that does not end stands in the second line, and no other offset has its place. -/
theorem position_counts_unfinished : ∃ e, Document.parse "a.html" "\n<a" = .error e ∧ e.offset = 1 ∧
    e.position = ⟨2, 1⟩ ∧ ∀ offset ∈ Set.Icc (0 : Int) 3, position "\n<a" offset = e.position → offset = 1 := by
  have hread : Document.parse "a.html" "\n<a" = .error ⟨"a.html", 1, ⟨2, 1⟩, .unfinishedTag⟩ := by cbv
  obtain ⟨-, hinj, -, herror⟩ := position_counts "\n<a"
  have hplace := (herror _ _ hread).2
  exact ⟨_, hread, rfl, rfl, fun offset hin h => hinj hin ⟨by decide, by decide⟩ (h.trans hplace)⟩

end Codemod.Markup
