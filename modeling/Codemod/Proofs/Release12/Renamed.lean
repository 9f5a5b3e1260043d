import Codemod.Proofs.Edit.Cuts
import Codemod.Proofs.Release12.HeaderFamily
import Codemod.Proofs.Release12.Matches

namespace Codemod

open Edit Workspace

namespace Release12

/-- A byte that marks the name behind it as that of a class, an id, a placeholder or a variable. -/
def isMark (c : UInt8) : Bool := Bytes.contains ".#%$@" [c]

/-- What becomes of a run of identifier bytes; `before` is the byte in front of it. -/
def renamedRun (names : List (Bytes × Bytes)) (before : Option UInt8) (run : Bytes) : Bytes :=
  if before.any isMark then run else (names.lookup run).getD run

/-- A text with every maximal run of identifier bytes renamed, in one pass. `run` is the part of a run that is
already read and `before` the byte in front of it; all other bytes stay. -/
def renameRuns (names : List (Bytes × Bytes)) (before : Option UInt8) (run : Bytes) : Bytes → Bytes
  | [] => renamedRun names before run
  | c :: s =>
    if isIdentByte c then renameRuns names before (run ++ [c]) s
    else renamedRun names before run ++ c :: renameRuns names (some c) [] s

/-- The selectors of a family as the style sheets have them. -/
def Family.renames (f : Family) : List (Bytes × Bytes) := f.selectors.map fun (old, new) => (bytes old, bytes new)

/-- The old selectors of the release with the new ones. -/
def selectorRenames : List (Bytes × Bytes) := families.flatMap Family.renames

section Runs

variable {names : List (Bytes × Bytes)} {before : Option UInt8} {run s : Bytes}

/-- Identifier bytes go on with the run. -/
theorem renameRuns_append {more : Bytes} (h : ∀ c ∈ more, isIdentByte c = true) :
    renameRuns names before run (more ++ s) = renameRuns names before (run ++ more) s := by
  induction more generalizing run with
  | nil => rw [List.nil_append, List.append_nil]
  | cons c more ih =>
    obtain ⟨hc, hmore⟩ := List.forall_mem_cons.mp h
    rw [List.cons_append, renameRuns, if_pos hc, ih hmore, List.append_assoc]
    rfl

theorem mem_of_lookup {old new : Bytes} (h : names.lookup old = some new) : (old, new) ∈ names := by
  obtain ⟨l, r, rfl, -⟩ := List.lookup_eq_some_iff.mp h
  simp

theorem lookup_eq_some_iff_mem (hdistinct : (names.map Prod.fst).Nodup) {old new : Bytes} :
    names.lookup old = some new ↔ (old, new) ∈ names := by
  refine ⟨mem_of_lookup, fun h => ?_⟩
  obtain ⟨l, r, rfl⟩ := List.append_of_mem h
  refine List.lookup_eq_some_iff.mpr ⟨l, r, rfl, fun x hx => ?_⟩
  rw [List.map_append, List.map_cons] at hdistinct
  have hne := (List.nodup_append.mp hdistinct).2.2 x.1 (List.mem_map_of_mem hx) old List.mem_cons_self
  exact bne_iff_ne.mpr hne.symm

theorem renamedRun_ident (hnew : ∀ x ∈ names, ∀ c ∈ x.2, isIdentByte c = true) (hrun : ∀ c ∈ run, isIdentByte c = true) :
    ∀ c ∈ renamedRun names before run, isIdentByte c = true := by
  unfold renamedRun
  split
  · exact hrun
  · cases hlook : names.lookup run with
    | none => exact hrun
    | some new => exact hnew _ (mem_of_lookup hlook)

/-- Renaming twice is renaming once, if it is so for every name. -/
theorem renameRuns_renameRuns {first second both : List (Bytes × Bytes)}
    (hnew : ∀ x ∈ first, ∀ c ∈ x.2, isIdentByte c = true)
    (hboth : ∀ run, (second.lookup ((first.lookup run).getD run)).getD ((first.lookup run).getD run) =
      (both.lookup run).getD run) (hrun : ∀ c ∈ run, isIdentByte c = true) :
    renameRuns second before [] (renameRuns first before run s) = renameRuns both before run s := by
  have hrenamed (before : Option UInt8) (run : Bytes) :
      renamedRun second before (renamedRun first before run) = renamedRun both before run := by
    unfold renamedRun
    split
    · rfl
    · exact hboth run
  induction s generalizing before run with
  | nil =>
    rw [renameRuns, ← List.append_nil (renamedRun first before run), renameRuns_append (renamedRun_ident hnew hrun),
      List.nil_append, renameRuns, hrenamed, renameRuns]
  | cons c s ih =>
    by_cases hc : isIdentByte c = true
    · have hmore : ∀ b ∈ run ++ [c], isIdentByte b = true := by simpa [or_imp, forall_and] using ⟨hrun, hc⟩
      rw [renameRuns, if_pos hc, renameRuns, if_pos hc, ih hmore]
    · rw [renameRuns, if_neg hc, renameRuns, if_neg hc, renameRuns_append (renamedRun_ident hnew hrun), List.nil_append,
        renameRuns, if_neg hc, hrenamed, ih (by simp)]

end Runs

section Offsets

variable {content name : Bytes}

/-- A name stands at an offset as a whole type selector. -/
structure StandsAt (content name : Bytes) (offset : Nat) : Prop where
  there : name <+: content.drop offset
  free : (byteBefore content offset).any bindsLeft = false
  ends : (content[offset + name.length]?).any isIdentByte = false

/-- Inside an occurrence of a name the byte in front is one of the name. -/
theorem byteBefore_inside {offset pos : Nat} (hthere : name <+: content.drop offset) (hlt : offset < pos)
    (hle : pos ≤ offset + name.length) : ∃ c ∈ name, byteBefore content pos = some c := by
  have hlength := hthere.length_le
  rw [List.length_drop] at hlength
  obtain ⟨k, rfl⟩ : ∃ k, pos = offset + k + 1 := ⟨pos - offset - 1, by omega⟩
  have hk : k < name.length := by omega
  refine ⟨name[k], List.getElem_mem hk, ?_⟩
  rw [byteBefore_succ (by omega), Option.some_inj, hthere.getElem hk, List.getElem_drop]

/-- The search finds every place where a name of identifier bytes stands whole: what it passes over is inside a
longer identifier. -/
theorem mem_offsetsFrom (hname : name ≠ []) (hident : ∀ c ∈ name, isIdentByte c = true) {offset pos : Nat} :
    pos ∈ offsetsFrom content name offset ↔ offset ≤ pos ∧ StandsAt content name pos := by
  induction hn : content.length - offset using Nat.strong_induction_on generalizing offset with
  | _ n ih =>
    by_cases hend : content.length ≤ offset
    · rw [offsetsFrom_of_le hend]
      refine ⟨fun hmem => absurd hmem List.not_mem_nil, fun ⟨hle, hstands⟩ => ?_⟩
      have := Bytes.length_of_prefix_drop hname hstands.there
      have := List.length_pos_iff.mpr hname
      omega
    · have hlt : offset < content.length := by omega
      by_cases hhere : name <+: content.drop offset
      · have hstop := Bytes.length_of_prefix_drop hname hhere
        have hpos := List.length_pos_iff.mpr hname
        have hrest : pos ∈ offsetsFrom content name (offset + name.length) ↔
            offset + name.length ≤ pos ∧ StandsAt content name pos := ih _ (by omega) rfl
        have hpassed (hstands : StandsAt content name pos) (hle : offset ≤ pos) :
            pos = offset ∨ offset + name.length ≤ pos := by
          by_contra hbetween
          obtain ⟨c, hc, hbefore⟩ := byteBefore_inside hhere (show offset < pos by omega) (by omega)
          have hfree := hstands.free
          rw [hbefore, Option.any_some, bindsLeft, hident c hc, Bool.true_or] at hfree
          cases hfree
        rw [offsetsFrom_hit hname hhere]
        by_cases hbound : ((byteBefore content offset).any bindsLeft || (content[offset + name.length]?).any isIdentByte) = true
        · rw [if_pos hbound, hrest]
          refine ⟨fun ⟨hle, hstands⟩ => ⟨by omega, hstands⟩, fun ⟨hle, hstands⟩ => ?_⟩
          obtain rfl | hle := hpassed hstands hle
          · rw [hstands.free, hstands.ends] at hbound
            cases hbound
          · exact ⟨hle, hstands⟩
        · rw [if_neg hbound, List.mem_cons, hrest]
          rw [Bool.or_eq_true, not_or, Bool.not_eq_true, Bool.not_eq_true] at hbound
          constructor
          · rintro (rfl | ⟨hle, hstands⟩)
            · exact ⟨Nat.le_refl _, hhere, hbound.1, hbound.2⟩
            · exact ⟨by omega, hstands⟩
          · rintro ⟨hle, hstands⟩
            exact (hpassed hstands hle).imp id fun hle => ⟨hle, hstands⟩
      · rw [offsetsFrom_step hlt hhere, ih _ (by omega) rfl]
        refine ⟨fun ⟨hle, hstands⟩ => ⟨by omega, hstands⟩, fun ⟨hle, hstands⟩ => ⟨?_, hstands⟩⟩
        obtain rfl | hlt := Nat.eq_or_lt_of_le hle
        · exact absurd hstands.there hhere
        · exact hlt

/-- It finds them from left to right. -/
theorem offsetsFrom_pairwise (hname : name ≠ []) (hident : ∀ c ∈ name, isIdentByte c = true) (offset : Nat) :
    (offsetsFrom content name offset).Pairwise (· < ·) := by
  induction hn : content.length - offset using Nat.strong_induction_on generalizing offset with
  | _ n ih =>
    by_cases hend : content.length ≤ offset
    · rw [offsetsFrom_of_le hend]
      exact List.Pairwise.nil
    · by_cases hhere : name <+: content.drop offset
      · have hstop := Bytes.length_of_prefix_drop hname hhere
        have hpos := List.length_pos_iff.mpr hname
        have hrest := ih _ (by omega) (offset + name.length) rfl
        rw [offsetsFrom_hit hname hhere]
        split
        · exact hrest
        · refine List.pairwise_cons.mpr ⟨fun pos hmem => ?_, hrest⟩
          have := ((mem_offsetsFrom hname hident).mp hmem).1
          omega
      · rw [offsetsFrom_step (by omega) hhere]
        exact ih _ (by omega) _ rfl

/-- At one place there is one maximal run. -/
theorem eq_of_ends {a b text : Bytes} (ha : a <+: text) (hb : b <+: text) (hidentA : ∀ c ∈ a, isIdentByte c = true)
    (hidentB : ∀ c ∈ b, isIdentByte c = true) (hendsA : (text[a.length]?).any isIdentByte = false)
    (hendsB : (text[b.length]?).any isIdentByte = false) : a = b := by
  have hshorter {a b : Bytes} (hb : b <+: text) (hident : ∀ c ∈ b, isIdentByte c = true)
      (hends : (text[a.length]?).any isIdentByte = false) : b.length ≤ a.length := by
    by_contra hlt
    have hthere := List.prefix_iff_getElem?.mp hb a.length (by omega)
    rw [hthere, Option.any_some, hident _ (List.getElem_mem _)] at hends
    cases hends
  have hlength := Nat.le_antisymm (hshorter ha hidentA hendsB) (hshorter hb hidentB hendsA)
  rw [List.prefix_iff_eq_take.mp ha, List.prefix_iff_eq_take.mp hb, hlength]

end Offsets

section Script

variable {names : List (Bytes × Bytes)} {before : Option UInt8} {pos : Nat} {run s content : Bytes}

/-- A run of identifier bytes as a stretch to edit. -/
def runSegment (names : List (Bytes × Bytes)) (before : Option UInt8) (pos : Nat) (run : Bytes) : Segment :=
  if before.any isMark then .keep run
  else match names.lookup run with
    | some new => .edit (.replace pos run new)
    | none => .keep run

/-- The renaming as a script; the run that is partly read stands at `pos`. -/
def runScript (names : List (Bytes × Bytes)) (before : Option UInt8) (pos : Nat) (run : Bytes) : Bytes → Script
  | [] => [runSegment names before pos run]
  | c :: s =>
    if isIdentByte c then runScript names before pos (run ++ [c]) s
    else runSegment names before pos run :: .keep [c] :: runScript names (some c) (pos + run.length + 1) [] s

theorem runSegment_source : (runSegment names before pos run).source = run := by
  unfold runSegment
  split
  · rfl
  · split <;> rfl

theorem runSegment_target : (runSegment names before pos run).target = renamedRun names before run := by
  unfold runSegment renamedRun
  split
  · rfl
  · split
    · next hlook => rw [hlook]; rfl
    · next hlook => rw [hlook]; rfl

theorem fits_runSegment {rest : Script} (hrest : rest.Fits (pos + run.length)) :
    Script.Fits pos (runSegment names before pos run :: rest) := by
  unfold runSegment
  split
  · exact hrest
  · split
    · exact ⟨rfl, .inr rfl, hrest⟩
    · exact hrest

theorem runScript_source : (runScript names before pos run s).source = run ++ s := by
  induction s generalizing before pos run with
  | nil => rw [runScript, Script.source, List.flatMap_cons, runSegment_source]; rfl
  | cons c s ih =>
    rw [runScript]
    split
    · rw [ih, List.append_assoc]; rfl
    · rw [Script.source, List.flatMap_cons, runSegment_source, List.flatMap_cons]
      exact congrArg (fun rest => run ++ c :: rest) ih

theorem runScript_target : (runScript names before pos run s).target = renameRuns names before run s := by
  induction s generalizing before pos run with
  | nil => rw [runScript, Script.target, List.flatMap_cons, runSegment_target, renameRuns]; exact List.append_nil _
  | cons c s ih =>
    rw [runScript, renameRuns]
    split
    · exact ih
    · rw [Script.target, List.flatMap_cons, runSegment_target, List.flatMap_cons]
      exact congrArg (fun rest => renamedRun names before run ++ c :: rest) ih

theorem runScript_fits : (runScript names before pos run s).Fits pos := by
  induction s generalizing before pos run with
  | nil => exact fits_runSegment trivial
  | cons c s ih =>
    rw [runScript]
    split
    · exact ih
    · exact fits_runSegment ih

/-- A run that is read to its end is renamed just if an old name stands here; no name stands further inside. -/
theorem standsAt_run (hrun : ∀ c ∈ run, isIdentByte c = true) (hthere : run <+: content.drop pos)
    (hends : (content[pos + run.length]?).any isIdentByte = false)
    (hbefore : (byteBefore content pos).any isIdentByte = false) {old : Bytes}
    (hold : ∀ c ∈ old, isIdentByte c = true) {offset : Nat} (hle : pos ≤ offset) (hlast : offset ≤ pos + run.length) :
    StandsAt content old offset ↔ offset = pos ∧ old = run ∧ (byteBefore content pos).any isMark = false := by
  have hfree : (byteBefore content pos).any bindsLeft = (byteBefore content pos).any isMark := by
    cases hbyte : byteBefore content pos with
    | none => rfl
    | some c =>
      rw [hbyte, Option.any_some] at hbefore
      rw [Option.any_some, Option.any_some, bindsLeft, hbefore, Bool.false_or, isMark]
  constructor
  · intro hstands
    obtain rfl | hlt := Nat.eq_or_lt_of_le hle
    · refine ⟨rfl, eq_of_ends hstands.there hthere hold hrun ?_ ?_, hfree.symm.trans hstands.free⟩
      · rw [List.getElem?_drop]
        exact hstands.ends
      · rw [List.getElem?_drop]
        exact hends
    · obtain ⟨c, hc, hbyte⟩ := byteBefore_inside hthere hlt hlast
      have hnot := hstands.free
      rw [hbyte, Option.any_some, bindsLeft, hrun c hc, Bool.true_or] at hnot
      cases hnot
  · rintro ⟨rfl, rfl, hmark⟩
    exact ⟨hthere, hfree.trans hmark, hends⟩

/-- What the script changes at a run: it renames the old name that stands there. -/
theorem mem_changes_runSegment {change : Change} {rest : Script} :
    change ∈ Script.changes (runSegment names before pos run :: rest) ↔
      (before.any isMark = false ∧ ∃ new, names.lookup run = some new ∧ change = .replace pos run new) ∨
        change ∈ rest.changes := by
  unfold runSegment
  cases hmark : before.any isMark with
  | true => simp
  | false =>
    cases hlook : names.lookup run with
    | none => simp
    | some new => simp

/-- What is renamed up to the end of a run is the run itself. -/
theorem renamed_up_to_run (hnames : ∀ x ∈ names, x.1 ≠ [] ∧ ∀ c ∈ x.1, isIdentByte c = true)
    (hrun : ∀ c ∈ run, isIdentByte c = true) (hthere : content.drop pos = run ++ s)
    (hbefore : (byteBefore content pos).any isIdentByte = false) (hends : s.head?.any isIdentByte = false)
    {change : Change} :
    ((byteBefore content pos).any isMark = false ∧ ∃ new, names.lookup run = some new ∧ change = .replace pos run new) ↔
      ∃ old new offset, names.lookup old = some new ∧ pos ≤ offset ∧ offset ≤ pos + run.length ∧
        StandsAt content old offset ∧ change = .replace offset old new := by
  have hnext : (content[pos + run.length]?).any isIdentByte = false := by
    rw [← List.getElem?_drop, hthere, List.getElem?_append_right (Nat.le_refl _), Nat.sub_self, ← List.head?_eq_getElem?]
    exact hends
  have hstands {old new : Bytes} {offset : Nat} (hlook : names.lookup old = some new) (hle : pos ≤ offset)
      (hlast : offset ≤ pos + run.length) :=
    standsAt_run hrun ⟨s, hthere.symm⟩ hnext hbefore (hnames _ (mem_of_lookup hlook)).2 hle hlast
  constructor
  · rintro ⟨hmark, new, hlook, rfl⟩
    exact ⟨run, new, pos, hlook, Nat.le_refl _, Nat.le_add_right _ _,
      (hstands hlook (Nat.le_refl _) (Nat.le_add_right _ _)).mpr ⟨rfl, rfl, hmark⟩, rfl⟩
  · rintro ⟨old, new, offset, hlook, hle, hlast, hat, rfl⟩
    obtain ⟨rfl, rfl, hmark⟩ := (hstands hlook hle hlast).mp hat
    exact ⟨hmark, new, hlook, rfl⟩

/-- The script renames the names of the table where they stand whole. -/
theorem mem_changes_runScript (hnames : ∀ x ∈ names, x.1 ≠ [] ∧ ∀ c ∈ x.1, isIdentByte c = true)
    (hrun : ∀ c ∈ run, isIdentByte c = true) (hthere : content.drop pos = run ++ s)
    (hbefore : (byteBefore content pos).any isIdentByte = false) {change : Change} :
    change ∈ (runScript names (byteBefore content pos) pos run s).changes ↔
      ∃ old new offset, names.lookup old = some new ∧ pos ≤ offset ∧ StandsAt content old offset ∧
        change = .replace offset old new := by
  -- byte by byte; an offset up to the end of the run that is open is left to that run
  induction s generalizing pos run with
  | nil =>
    rw [runScript, mem_changes_runSegment, renamed_up_to_run hnames hrun hthere hbefore rfl, Script.changes_nil]
    constructor
    · rintro (⟨old, new, offset, hlook, hle, -, hat⟩ | hnil)
      · exact ⟨old, new, offset, hlook, hle, hat⟩
      · cases hnil
    · rintro ⟨old, new, offset, hlook, hle, hat, hchange⟩
      have hlength := congrArg List.length hthere
      rw [List.append_nil, List.length_drop] at hlength
      have := Bytes.length_of_prefix_drop (hnames _ (mem_of_lookup hlook)).1 hat.there
      exact .inl ⟨old, new, offset, hlook, hle, by omega, hat, hchange⟩
  | cons c s ih =>
    have hlength := congrArg List.length hthere
    rw [List.length_drop, List.length_append, List.length_cons] at hlength
    rw [runScript]
    by_cases hc : isIdentByte c = true
    · rw [if_pos hc]
      exact ih (by simpa [or_imp, forall_and] using ⟨hrun, hc⟩) (by rw [hthere, List.append_assoc]; rfl) hbefore
    · rw [Bool.not_eq_true] at hc
      have hbyte : content[pos + run.length]? = some c := by
        rw [← List.getElem?_drop, hthere, List.getElem?_append_right (Nat.le_refl _), Nat.sub_self]
        rfl
      have hprevious : byteBefore content (pos + run.length + 1) = some c := by
        rw [byteBefore_succ (by omega), ← hbyte, List.getElem?_eq_getElem]
      have hrest : content.drop (pos + run.length + 1) = s := by
        rw [Nat.add_assoc, ← List.drop_drop, hthere, ← List.drop_drop, List.drop_left]
        rfl
      have hlater : change ∈ (runScript names (some c) (pos + run.length + 1) [] s).changes ↔
          ∃ old new offset, names.lookup old = some new ∧ pos + run.length + 1 ≤ offset ∧ StandsAt content old offset ∧
            change = .replace offset old new := by
        rw [← hprevious]
        exact ih (by simp) hrest (by rw [hprevious]; exact hc)
      rw [if_neg (by rw [hc]; exact Bool.false_ne_true), mem_changes_runSegment,
        renamed_up_to_run hnames hrun hthere hbefore hc, Script.changes_keep, hlater]
      constructor
      · rintro (⟨old, new, offset, hlook, hle, -, hat⟩ | ⟨old, new, offset, hlook, hle, hat⟩)
        · exact ⟨old, new, offset, hlook, hle, hat⟩
        · exact ⟨old, new, offset, hlook, by omega, hat⟩
      · rintro ⟨old, new, offset, hlook, hle, hat⟩
        obtain hlast | hbehind := Nat.lt_or_ge (pos + run.length) offset
        · exact .inr ⟨old, new, offset, hlook, hlast, hat⟩
        · exact .inl ⟨old, new, offset, hlook, hle, hbehind, hat⟩

end Script

section Families

variable {f : Family}

/-- The names of a family are identifiers, no old name is listed twice, and no new name is an old one. -/
theorem renames_of_family (hf : f ∈ families) : (f.renames.map Prod.fst).Nodup ∧
    (∀ x ∈ f.renames, x.1 ≠ [] ∧ x.1.all isIdentByte = true ∧ x.2.all isIdentByte = true) ∧
    ∀ x ∈ selectorRenames, f.renames.lookup x.2 = none := by
  revert f
  decide +kernel

theorem renames_ident (hf : f ∈ families) : (∀ x ∈ f.renames, x.1 ≠ [] ∧ ∀ c ∈ x.1, isIdentByte c = true) ∧
    (∀ x ∈ f.renames, ∀ c ∈ x.2, isIdentByte c = true) ∧ (f.renames.map Prod.fst).Nodup := by
  obtain ⟨hdistinct, hnames, -⟩ := renames_of_family hf
  simp only [List.all_eq_true] at hnames
  exact ⟨fun x hx => ⟨(hnames x hx).1, (hnames x hx).2.1⟩, fun x hx => (hnames x hx).2.2, hdistinct⟩

/-- What the rule of a family asks for. -/
theorem mem_renameSelectors (hf : f ∈ families) {content : Bytes} {change : Change} :
    change ∈ renameSelectors f content ↔ ∃ old new offset, (old, new) ∈ f.renames ∧ StandsAt content old offset ∧
      change = .replace offset old new := by
  have hnames := (renames_ident hf).1
  have hoffset {x : String × String} (hx : x ∈ f.selectors) {offset : Nat} :
      offset ∈ selectorOffsets (bytes x.1) none 0 0 content ↔ StandsAt content (bytes x.1) offset := by
    obtain ⟨hne, hident⟩ := hnames (bytes x.1, bytes x.2) (List.mem_map_of_mem hx)
    exact (mem_offsetsFrom hne hident).trans (and_iff_right (Nat.zero_le offset))
  simp only [renameSelectors, List.mem_flatMap, List.mem_map]
  constructor
  · rintro ⟨x, hx, offset, hat, rfl⟩
    exact ⟨_, _, offset, List.mem_map_of_mem hx, (hoffset hx).mp hat, rfl⟩
  · rintro ⟨old, new, offset, hmem, hat, rfl⟩
    obtain ⟨x, hx, heq⟩ := List.mem_map.mp hmem
    cases heq
    exact ⟨x, hx, offset, (hoffset hx).mpr hat, rfl⟩

/-- It asks for nothing twice. -/
theorem renameSelectors_nodup (hf : f ∈ families) (content : Bytes) : (renameSelectors f content).Nodup := by
  obtain ⟨hnames, -, hdistinct⟩ := renames_ident hf
  have hedits : renameSelectors f content = f.renames.flatMap fun x =>
      (offsetsFrom content x.1 0).map fun offset => .replace offset x.1 x.2 := by
    rw [Family.renames, List.flatMap_map]
    rfl
  rw [hedits, List.nodup_flatMap]
  constructor
  · intro x hx
    refine (offsetsFrom_pairwise (hnames x hx).1 (hnames x hx).2 0).map _ fun a b hlt heq => ?_
    have hsame := Int.ofNat.inj (congrArg Change.position heq)
    omega
  · refine (List.pairwise_map.mp hdistinct).imp fun hne => ?_
    intro change hleft hright
    obtain ⟨_, -, rfl⟩ := List.mem_map.mp hleft
    obtain ⟨_, -, heq⟩ := List.mem_map.mp hright
    exact hne (congrArg Change.remove heq).symm

/-- The edits for a family rename the runs in one pass. -/
theorem applyChanges_renameSelectors (hf : f ∈ families) (content : Bytes) :
    applyChanges content (renameSelectors f content) = .ok (renameRuns f.renames none [] content) := by
  obtain ⟨hnames, -, hdistinct⟩ := renames_ident hf
  have hstart : content.drop 0 = [] ++ content := rfl
  have hmem {change : Change} : change ∈ (runScript f.renames none 0 [] content).changes ↔
      ∃ old new offset, f.renames.lookup old = some new ∧ 0 ≤ offset ∧ StandsAt content old offset ∧
        change = .replace offset old new :=
    mem_changes_runScript hnames (by simp) hstart rfl
  have hlook {old new : Bytes} : f.renames.lookup old = some new ↔ (old, new) ∈ f.renames :=
    lookup_eq_some_iff_mem hdistinct
  have htakes : ∀ c ∈ (runScript f.renames none 0 [] content).changes, c.Takes := by
    intro c hc
    obtain ⟨old, new, offset, hold, -, -, rfl⟩ := hmem.mp hc
    exact Change.takes_replace (hnames _ (hlook.mp hold)).1
  have hperm : (renameSelectors f content).Perm (runScript f.renames none 0 [] content).changes := by
    refine (List.perm_ext_iff_of_nodup (renameSelectors_nodup hf content) ?_).mpr fun change => ?_
    · refine (Script.positions_lt runScript_fits htakes).imp fun hlt heq => ?_
      rw [heq] at hlt
      exact absurd hlt (Int.lt_irrefl _)
    · rw [mem_renameSelectors hf, hmem]
      simp only [hlook, Nat.zero_le, true_and]
  have happly := Script.applyChanges_of_perm runScript_fits htakes hperm
  rw [runScript_source, runScript_target] at happly
  exact happly

/-- A table after another acts as both in one, if it leaves the new names of the first alone. -/
theorem lookup_lookup {first second : List (Bytes × Bytes)} (h : ∀ x ∈ first, second.lookup x.2 = none) (run : Bytes) :
    (second.lookup ((first.lookup run).getD run)).getD ((first.lookup run).getD run) =
      ((first ++ second).lookup run).getD run := by
  rw [List.lookup_append]
  cases hlook : first.lookup run with
  | none => rfl
  | some new =>
    rw [Option.getD_some, h _ (mem_of_lookup hlook)]
    rfl

theorem selectorRenames_ident : ∀ x ∈ selectorRenames, ∀ c ∈ x.2, isIdentByte c = true := by
  intro x hx
  obtain ⟨f, hf, hx⟩ := List.mem_flatMap.mp hx
  exact (renames_ident hf).2.1 x hx

theorem lookup_renamed (hf : f ∈ families) : ∀ x ∈ selectorRenames, f.renames.lookup x.2 = none :=
  (renames_of_family hf).2.2

/-- Two families in a row rename as both at once. -/
theorem renameRuns_families (content : Bytes) :
    renameRuns tabs.renames none [] (renameRuns bottomNav.renames none [] content) =
      renameRuns selectorRenames none [] content := by
  have hfirst : bottomNav ∈ families := by simp [families]
  have hsecond : tabs ∈ families := by simp [families]
  have hboth : selectorRenames = bottomNav.renames ++ tabs.renames := rfl
  refine renameRuns_renameRuns (renames_ident hfirst).2.1 ?_ (by simp)
  rw [hboth]
  exact lookup_lookup fun x hx => lookup_renamed hsecond x (hboth ▸ List.mem_append_left _ hx)

/-- What is renamed is not renamed again. -/
theorem renameRuns_renamed (hf : f ∈ families) (content : Bytes) :
    renameRuns f.renames none [] (renameRuns selectorRenames none [] content) =
      renameRuns selectorRenames none [] content := by
  refine renameRuns_renameRuns selectorRenames_ident (fun run => ?_) (by simp)
  rw [lookup_lookup (lookup_renamed hf) run, List.lookup_append]
  cases hlook : selectorRenames.lookup run with
  | some new => rfl
  | none =>
    cases hold : f.renames.lookup run with
    | none => rfl
    | some new =>
      have hmem := List.lookup_eq_none_iff.mp hlook _ (List.mem_flatMap_of_mem hf (mem_of_lookup hold))
      simp at hmem

end Families

section Stages

open Migration

/-- The stage that renames the selectors of a family. -/
def selectorStage (f : Family) : Stage where
  rule := .pure (f.component ++ "-style-selectors") "Tab selectors"
    ("Renames " ++ f.component ++ " item selectors in style sheets") .style fun c => renameSelectors f c.content
  group := ""

/-- The migration without the stages for templates and sources. -/
def restyling : Migration :=
  { migration with
    stages := migration.stages.filter fun stage =>
      ["igx-bottom-nav-style-selectors", "igx-tabs-style-selectors"].contains stage.rule.id }

theorem stages_restyling : restyling.stages = [selectorStage bottomNav, selectorStage tabs] := by
  rfl

theorem edits?_selectorStage (f : Family) (path content : Bytes) (touched : Bool) :
    (selectorStage f).edits? path content touched = some (renameSelectors f content) := rfl

theorem looks_selectorStage {files : FileSet} {path : Bytes} (f : Family) :
    looks [] files path (selectorStage f) = true ↔ path ∈ files.styles := by
  have hsorted : path ∈ Bytes.sort files.styles ↔ path ∈ files.styles := (List.mergeSort_perm ..).mem_iff
  simpa [looks, selectorStage, Rule.pure, FileSet.files] using hsorted

section File

variable {free : Prop} {looks : Stage → Bool} {path : Bytes} {v w : FileView}

/-- A style sheet on its way through both stages. -/
theorem content_of_restyling {first second : List (Bytes × Nat)}
    (h : FileRun free looks path [(selectorStage bottomNav, first), (selectorStage tabs, second)] v w) (hfree : free)
    (hlooks : ∀ f, looks (selectorStage f) = true) (hv : v.Live) {f : MemoryFile} (hf : v.file = some f) :
    ∃ g, w.file = some g ∧ g.content = renameRuns selectorRenames none [] f.content ∧ w.Live := by
  have hstep {x : Family} (hx : x ∈ families) {v u : FileView} {writes : List (Bytes × Nat)}
      (step : FileStep free path (selectorStage x) (looks (selectorStage x)) v u writes) (hv : v.Live) {f : MemoryFile}
      (hf : v.file = some f) : ∃ g, u.file = some g ∧ g.content = renameRuns x.renames none [] f.content ∧ u.Live := by
    rw [hlooks] at step
    exact step.content_of_edits hfree hv hf fun touched =>
      ⟨_, edits?_selectorStage x path f.content touched, applyChanges_renameSelectors hx f.content⟩
  cases h with
  | cons step1 h =>
    obtain ⟨g, hg, hcontent, hu⟩ := hstep (by simp [families]) step1 hv hf
    cases h with
    | cons step2 h =>
      obtain ⟨g', hg', hcontent', hw⟩ := hstep (by simp [families]) step2 hu hg
      cases h
      rw [hcontent, renameRuns_families] at hcontent'
      exact ⟨g', hg', hcontent', hw⟩

theorem eq_of_unseen_step {stage : Stage} {writes : List (Bytes × Nat)} {u : FileView}
    (step : FileStep free path stage false v u writes) : u = v := by
  cases step with
  | unseen => rfl
  | passedOver seen => cases seen
  | kept seen => cases seen
  | failed seen => cases seen
  | written seen => cases seen

/-- A file that no stage looks at. -/
theorem eq_of_unseen {history : History} (h : FileRun free looks path history v w)
    (hlooks : ∀ x ∈ history, looks x.1 = false) : w = v := by
  induction h with
  | nil v => rfl
  | cons step run ih =>
    obtain ⟨hhead, hrest⟩ := List.forall_mem_cons.mp hlooks
    rw [hhead] at step
    rw [ih hrest, eq_of_unseen_step step]

end File

/-- Both stages over any style sheets give up none of them and leave each with its old selectors renamed, every
maximal run of identifier bytes in one pass. A second run has nothing to do. -/
theorem restyled_of_run {files : FileSet} (hd : files.Distinct) (tree : Memory)
    (hthere : ∀ path ∈ files.styles, (tree.file? path).isSome = true) :
    let first := run Memory.store [] files restyling false tree
    first.result.failed = [] ∧
      (∀ path ∈ files.styles, ∀ f, tree.file? path = some f → ∃ g, first.tree.file? path = some g ∧
        g.content = renameRuns selectorRenames none [] f.content) ∧
      (run Memory.store [] files restyling false first.tree).Idle first.tree := by
  intro first
  have hcancels : ∀ stage ∈ restyling.stages, ∀ c, (stage.rule.apply c).cancels = false := fun stage hstage =>
    cancels_eq_false stage (List.mem_filter.mp hstage).1
  have hun (tree : Memory) : (runStages (Memory.store.refusing (fun _ => none) (fun _ => none)) [] files
      restyling.version restyling.stages ⟨tree, [], .empty, false, []⟩).progress.cancelled = false :=
    runStages_uncancelled [] files restyling.version hcancels rfl
  have hstart (path : Bytes) : FileView.Live ⟨tree.file? path, none⟩ := by rintro st ⟨⟩
  obtain ⟨history, hstages, -, -, hruns⟩ := runStages_history hd restyling.stages (hun tree)
  rw [stages_restyling] at hstages
  obtain ⟨⟨_, writes1⟩, rest, rfl, rfl, hrest⟩ := List.map_eq_cons_iff.mp hstages
  obtain ⟨⟨_, writes2⟩, rest, rfl, rfl, hnil⟩ := List.map_eq_cons_iff.mp hrest
  obtain rfl := List.map_eq_nil_iff.mp hnil
  have hsheet {path : Bytes} (hpath : path ∈ files.styles) {f : MemoryFile} (hf : tree.file? path = some f) :=
    content_of_restyling (hruns path) ⟨rfl, rfl⟩ (fun x => (looks_selectorStage x).mpr hpath) (hstart path) hf
  have hother {path : Bytes} (hpath : path ∉ files.styles) := eq_of_unseen (hruns path) (by
    have hunseen (x : Family) := Bool.eq_false_iff.mpr fun h => hpath ((looks_selectorStage x).mp h)
    simp [hunseen])
  refine ⟨?_, fun path hpath f hf => ?_, ?_⟩
  · have hbegin : Sums [] 0 := ⟨List.nodup_nil, rfl⟩
    have hsums := hbegin.runStages (Memory.store.refusing (fun _ => none) (fun _ => none))
      (p := ⟨tree, [], .empty, false, []⟩) [] files restyling.version restyling.stages
    rw [Result.failed_eq_nil_iff]
    intro st hst
    have hlive : FileView.Live ⟨first.tree.file? st.path, States.at? first.result.states st.path⟩ := by
      by_cases hpath : st.path ∈ files.styles
      · obtain ⟨f, hf⟩ := Option.isSome_iff_exists.mp (hthere _ hpath)
        obtain ⟨-, -, -, hlive⟩ := hsheet hpath hf
        exact hlive
      · exact (congrArg FileView.Live (hother hpath)).mpr (hstart st.path)
    exact hlive st (hsums.at?_of_mem hst)
  · obtain ⟨g, hg, hcontent, -⟩ := hsheet hpath hf
    exact ⟨g, hg, hcontent⟩
  · refine (run_idle_iff [] hd restyling first.tree (hun first.tree)).mpr fun stage hstage path hlooks => ?_
    obtain ⟨x, hx, rfl⟩ : ∃ x ∈ families, stage = selectorStage x := by
      rw [stages_restyling] at hstage
      simpa [families] using hstage
    have hpath := (looks_selectorStage x).mp hlooks
    obtain ⟨f, hf⟩ := Option.isSome_iff_exists.mp (hthere path hpath)
    obtain ⟨g, hg, hcontent, -⟩ := hsheet hpath hf
    refine ⟨g, hg, Stage.quiet_iff.mpr ⟨_, edits?_selectorStage x path g.content false, ?_⟩⟩
    rw [applyChanges_renameSelectors hx, hcontent, renameRuns_renamed hx]

/-- A class and a longer name stay as they are, and the last selector ends the sheet. -/
theorem restyled_of_run_sheet :
    let files : FileSet := ⟨[], ["a.scss"], []⟩
    let tree := Memory.ofFiles [("a.scss", "igx-tab-panel>.igx-tab,igx-tab-x igx-tabs-group{}igx-tab")]
    let first := run Memory.store [] files restyling false tree
    first.result.failed = [] ∧ (run Memory.store [] files restyling false first.tree).Idle first.tree ∧
      ∃ g, first.tree.file? "a.scss" = some g ∧
        g.content = bytes "igx-bottom-nav-content>.igx-tab,igx-tab-x igx-tab-content{}igx-bottom-nav-header" := by
  intro files tree first
  have hd : files.Distinct := ⟨by decide, by decide, by decide⟩
  obtain ⟨hfailed, hcontents, hidle⟩ := restyled_of_run hd tree (by decide)
  obtain ⟨g, hg, hcontent⟩ := hcontents "a.scss" (by decide) _ rfl
  refine ⟨hfailed, hidle, g, hg, ?_⟩
  rw [hcontent]
  show renameRuns selectorRenames none [] (bytes "igx-tab-panel>.igx-tab,igx-tab-x igx-tabs-group{}igx-tab") = _
  repeat rw [bytes_ofList]
  decide +kernel

end Stages

end Release12

end Codemod
