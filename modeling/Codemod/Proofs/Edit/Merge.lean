import Codemod.Proofs.Edit.Script
import Mathlib.Data.List.Pairwise

namespace Codemod.Edit

/-- The texts inserted at an offset, in the order of the list. -/
def insertedAt (changes : List Change) (p : Nat) : Bytes :=
  (changes.filter fun c => c.mode = .insert ∧ c.position = (p : Int)).flatMap Change.text

/-- The text of the replacement that starts at an offset. -/
def replacementAt (changes : List Change) (p : Nat) : Bytes :=
  ((changes.find? fun c => c.mode = .replace ∧ c.position = (p : Int)).map Change.text).getD []

/-- An offset lies in a replaced range. -/
def covered (changes : List Change) (p : Nat) : Bool :=
  changes.any fun c => c.mode = .replace ∧ c.position ≤ p ∧ p < c.stop

/-- One pass over the content whose first byte has offset `p`. At every offset, its end
included, come the inserted texts, the replacement and the byte unless it is replaced. -/
def mergeFrom (changes : List Change) (p : Nat) : Bytes → Bytes
  | [] => insertedAt changes p ++ replacementAt changes p
  | b :: s =>
    insertedAt changes p ++ replacementAt changes p ++ (if covered changes p then [] else [b]) ++
      mergeFrom changes (p + 1) s

def merge (content : Bytes) (changes : List Change) : Bytes := mergeFrom changes 0 content

/-- The replacements find their texts in the content and neither overlap one another nor
enclose an insertion. -/
structure Separate (content : Bytes) (changes : List Change) : Prop where
  found : ∀ r ∈ changes, r.mode = .replace → content.slice r.position.toNat r.stop.toNat = r.remove
  distinct : (changes.filter (·.mode = .replace)).Pairwise (·.position ≠ ·.position)
  apart : ∀ r ∈ changes, ∀ r' ∈ changes, r.mode = .replace → r'.mode = .replace →
    r.position < r'.position → r.stop ≤ r'.position
  outside : ∀ r ∈ changes, ∀ c ∈ changes, r.mode = .replace → c.mode = .insert →
    ¬(r.position < c.position ∧ c.position < r.stop)

/-- What validation promises of every change. -/
theorem validate_ok {changes : List Change} {length : Nat} (h : validate changes length = .ok ()) :
    ∀ c ∈ changes, 0 ≤ c.position ∧ (c.mode = .insert ∨ c.mode = .replace) ∧ c.stop64 ≤ length :=
  fun c hc => Change.misfit?_eq_none_iff.mp (validate_eq_ok_iff.mp h c hc)

theorem keyed_keyed (k j : Int × Int) (changes : List Change) :
    keyed k (keyed j changes) = if k = j then keyed j changes else [] := by
  unfold keyed
  rw [List.filter_filter]
  split_ifs with h
  · subst h; simp
  · refine List.filter_eq_nil_iff.mpr ?_
    intro c _ hc
    simp only [Bool.and_eq_true, decide_eq_true_eq] at hc
    exact h (hc.1.symm.trans hc.2)

/-- The changes at an offset, insertions first. -/
def editsAt (changes : List Change) (p : Nat) : List Change :=
  keyed (p, 0) changes ++ keyed (p, 1) changes

/-- The merge as a script: the same pass, with the changes in place of their texts. -/
def scriptFrom (changes : List Change) (p : Nat) : Bytes → Script
  | [] => (editsAt changes p).map .edit
  | b :: s =>
    (editsAt changes p).map .edit ++ (if covered changes p then [] else [.keep [b]]) ++
      scriptFrom changes (p + 1) s

theorem Script.changes_edits (edits : List Change) : Script.changes (edits.map .edit) = edits := by
  induction edits with
  | nil => rfl
  | cons c edits ih => simp [ih]

theorem Script.target_edits (edits : List Change) :
    Script.target (edits.map .edit) = edits.flatMap Change.text := by
  induction edits with
  | nil => rfl
  | cons c edits ih => simp [ih]

theorem Separate.unique {content : Bytes} {changes : List Change} (sep : Separate content changes)
    {r r' : Change} (hr : r ∈ changes) (hr' : r' ∈ changes)
    (hm : r.mode = .replace) (hm' : r'.mode = .replace) (hp : r.position = r'.position) : r = r' := by
  have hmem {c : Change} (hc : c ∈ changes) (h : c.mode = .replace) :
      c ∈ changes.filter (·.mode = .replace) := List.mem_filter.mpr ⟨hc, by simpa using h⟩
  have hsymm : Std.Symm (fun a b : Change => a.position ≠ b.position) := ⟨fun _ _ => Ne.symm⟩
  by_contra hne
  exact sep.distinct.forall (hmem hr hm) (hmem hr' hm') hne hp

/-- The pass meets every change of the list. -/
theorem keyed_scriptFrom (changes : List Change) (k : Int × Int) (p : Nat) (s : Bytes) :
    keyed k (scriptFrom changes p s).changes =
      if p ≤ k.1 ∧ k.1 ≤ p + s.length ∧ (k.2 = 0 ∨ k.2 = 1) then keyed k changes else [] := by
  have hat (p : Nat) : keyed k (editsAt changes p) =
      if k.1 = p ∧ (k.2 = 0 ∨ k.2 = 1) then keyed k changes else [] := by
    rw [editsAt]
    simp only [keyed, List.filter_append]
    change keyed k (keyed _ changes) ++ keyed k (keyed _ changes) = _
    rw [keyed_keyed, keyed_keyed]
    obtain ⟨q, code⟩ := k
    by_cases hq : q = p
    · subst hq
      by_cases h0 : code = 0
      · subst h0; simp [keyed]
      · by_cases h1 : code = 1
        · subst h1; simp [keyed]
        · simp [h0, h1]
    · simp [hq]
  induction s generalizing p with
  | nil =>
    simp only [scriptFrom, Script.changes_edits, hat, List.length_nil]
    by_cases h : k.1 = p ∧ (k.2 = 0 ∨ k.2 = 1)
    · rw [if_pos h, if_pos ⟨by omega, by omega, h.2⟩]
    · rw [if_neg h, if_neg (fun hh => h ⟨by omega, hh.2.2⟩)]
  | cons b s ih =>
    have hbyte : Script.changes (if covered changes p then [] else [.keep [b]]) = [] := by
      split_ifs <;> simp
    simp only [scriptFrom, Script.changes_append, Script.changes_edits, hbyte, List.append_nil]
    have happ : keyed k (editsAt changes p ++ (scriptFrom changes (p + 1) s).changes) =
        keyed k (editsAt changes p) ++ keyed k (scriptFrom changes (p + 1) s).changes :=
      List.filter_append ..
    rw [happ, hat, ih, List.length_cons]
    by_cases h : k.1 = p ∧ (k.2 = 0 ∨ k.2 = 1)
    · rw [if_pos h, if_neg (by push_cast; omega), if_pos ⟨by omega, by push_cast; omega, h.2⟩, List.append_nil]
    · rw [if_neg h, List.nil_append]
      by_cases hin : ((p + 1 : Nat) : Int) ≤ k.1 ∧ k.1 ≤ (p + 1 : Nat) + (s.length : Int) ∧ (k.2 = 0 ∨ k.2 = 1)
      · rw [if_pos hin, if_pos ⟨by omega, by push_cast; omega, hin.2.2⟩]
      · rw [if_neg hin, if_neg]
        rintro ⟨h1, h2, h3⟩
        refine hin ⟨?_, by push_cast at h2 ⊢; omega, h3⟩
        have : k.1 ≠ p := fun he => h ⟨he, h3⟩
        push_cast
        omega

/-- Reading at offset `p`, the pass goes on at offset `q`: behind the replacement that reaches
over `p`, or at `p` itself. -/
def Resumes (changes : List Change) (p q : Nat) : Prop :=
  (∃ r ∈ changes, r.mode = .replace ∧ r.position < p ∧ p < r.stop ∧ r.stop = q) ∨
    (q = p ∧ ∀ r ∈ changes, r.mode = .replace → ¬(r.position < p ∧ p < r.stop))

theorem covered_iff (changes : List Change) (p : Nat) : covered changes p = true ↔
    ∃ r ∈ changes, r.mode = .replace ∧ r.position ≤ p ∧ p < r.stop := by
  simp [covered]

theorem Script.fits_inserts {p : Nat} {edits : List Change} {s : Script}
    (h : ∀ c ∈ edits, c.mode = .insert ∧ c.position = p) (hs : s.Fits p) :
    Script.Fits p (edits.map .edit ++ s) ∧ Script.source (edits.map .edit ++ s) = s.source := by
  induction edits with
  | nil => exact ⟨hs, rfl⟩
  | cons c edits ih =>
    obtain ⟨hm, hp⟩ := h c (by simp)
    obtain ⟨h1, h2⟩ := ih fun d hd => h d (by simp [hd])
    have hrem : c.removed = [] := by simp [Change.removed, hm]
    refine ⟨⟨hp, Or.inl hm, ?_⟩, ?_⟩
    · rw [hrem]
      exact h1
    · rw [List.map_cons, List.cons_append, source_edit, hrem]
      exact h2

section Pass

variable {content : Bytes} {changes : List Change}
  (valid : validate changes content.length = .ok ()) (sep : Separate content changes)

include valid

theorem mem_keyed_insert {p : Nat} {c : Change} :
    c ∈ keyed ((p : Int), 0) changes ↔ c ∈ changes ∧ c.mode = .insert ∧ c.position = p := by
  simp only [keyed, Change.key, List.mem_filter, decide_eq_true_eq, Prod.mk.injEq]
  constructor
  · rintro ⟨hc, hp, hm⟩
    rcases (validate_ok valid c hc).2.1 with h | h
    · exact ⟨hc, h, hp⟩
    · simp [h, Mode.code] at hm
  · rintro ⟨hc, hm, hp⟩
    exact ⟨hc, hp, by simp [hm, Mode.code]⟩

theorem mem_keyed_replace {p : Nat} {c : Change} :
    c ∈ keyed ((p : Int), 1) changes ↔ c ∈ changes ∧ c.mode = .replace ∧ c.position = p := by
  simp only [keyed, Change.key, List.mem_filter, decide_eq_true_eq, Prod.mk.injEq]
  constructor
  · rintro ⟨hc, hp, hm⟩
    rcases (validate_ok valid c hc).2.1 with h | h
    · simp [h, Mode.code] at hm
    · exact ⟨hc, h, hp⟩
  · rintro ⟨hc, hm, hp⟩
    exact ⟨hc, hp, by simp [hm, Mode.code]⟩

theorem keyed_insert_eq (p : Nat) :
    keyed ((p : Int), 0) changes = changes.filter fun c => c.mode = .insert ∧ c.position = (p : Int) := by
  refine List.filter_congr ?_
  intro c hc
  have h := mem_keyed_insert valid (p := p) (c := c)
  simp only [keyed, List.mem_filter, hc, true_and, decide_eq_true_eq] at h
  simp only [h]

theorem keyed_replace_eq (p : Nat) :
    keyed ((p : Int), 1) changes = changes.filter fun c => c.mode = .replace ∧ c.position = (p : Int) := by
  refine List.filter_congr ?_
  intro c hc
  have h := mem_keyed_replace valid (p := p) (c := c)
  simp only [keyed, List.mem_filter, hc, true_and, decide_eq_true_eq] at h
  simp only [h]

include sep

/-- Every change lies in the content. -/
theorem stop_le_of_separate {c : Change} (hc : c ∈ changes) : c.stop ≤ content.length :=
  Change.stop_le_of_found (validate_ok valid c hc).2.2 (sep.found c hc)

/-- No changes but those of the two applicable modes at an offset of the content. -/
theorem keyed_eq_nil {k : Int × Int}
    (hk : ¬(0 ≤ k.1 ∧ k.1 ≤ content.length ∧ (k.2 = 0 ∨ k.2 = 1))) : keyed k changes = [] := by
  refine List.filter_eq_nil_iff.mpr ?_
  intro c hc hkey
  have hkey : c.key = k := by simpa using hkey
  obtain ⟨hp, hm, -⟩ := validate_ok valid c hc
  have hstop := stop_le_of_separate valid sep hc
  apply hk
  rw [← hkey]
  rcases hm with hm | hm
  · simp only [Change.stop, hm] at hstop
    exact ⟨hp, by simpa [Change.key] using hstop, by simp [Change.key, hm, Mode.code]⟩
  · simp only [Change.stop, hm, if_true] at hstop
    exact ⟨hp, by simp only [Change.key]; omega, by simp [Change.key, hm, Mode.code]⟩

/-- At most one replacement starts at an offset. -/
theorem keyed_replace_cases (p : Nat) :
    keyed ((p : Int), 1) changes = [] ∨ ∃ r ∈ changes, r.mode = .replace ∧ r.position = p ∧
      keyed ((p : Int), 1) changes = [r] := by
  have hsub : (keyed ((p : Int), 1) changes).Pairwise (·.position ≠ ·.position) := by
    refine sep.distinct.sublist ?_
    rw [keyed_replace_eq valid]
    exact List.monotone_filter_right _ (fun c hc => by simp at hc ⊢; exact hc.1)
  have hmem : ∀ c ∈ keyed ((p : Int), 1) changes, c ∈ changes ∧ c.mode = .replace ∧ c.position = p :=
    fun c => (mem_keyed_replace valid).mp
  rcases hk : keyed ((p : Int), 1) changes with _ | ⟨r, rs⟩
  · exact Or.inl rfl
  · rw [hk] at hsub hmem
    obtain ⟨hr, hm, hp⟩ := hmem r (by simp)
    cases rs with
    | nil => exact Or.inr ⟨r, hr, hm, hp, rfl⟩
    | cons r' rs =>
      have hp' := (hmem r' (by simp)).2.2
      exact absurd (hp.trans hp'.symm) ((List.pairwise_cons.mp hsub).1 r' (by simp))

theorem replacementAt_eq (p : Nat) :
    replacementAt changes p = (keyed ((p : Int), 1) changes).flatMap Change.text := by
  have hfind : (changes.find? fun c => c.mode = .replace ∧ c.position = (p : Int)) =
      (keyed ((p : Int), 1) changes).head? := by
    rw [keyed_replace_eq valid, List.head?_filter]
  rw [replacementAt, hfind]
  rcases keyed_replace_cases valid sep p with h | ⟨r, _, _, _, h⟩
  · simp [h]
  · simp [h]

/-- The script's target is the merge. -/
theorem target_scriptFrom (p : Nat) (s : Bytes) :
    (scriptFrom changes p s).target = mergeFrom changes p s := by
  have htexts (p : Nat) : Script.target ((editsAt changes p).map .edit) =
      insertedAt changes p ++ replacementAt changes p := by
    rw [Script.target_edits, editsAt, List.flatMap_append, replacementAt_eq valid sep, insertedAt,
      keyed_insert_eq valid]
  induction s generalizing p with
  | nil => exact htexts p
  | cons b s ih =>
    have hbyte : Script.target (if covered changes p then [] else [.keep [b]]) =
        if covered changes p then [] else [b] := by
      split_ifs <;> simp
    simp only [scriptFrom, mergeFrom, Script.target_append, htexts, hbyte, ih]

omit sep in
theorem scriptFrom_sorted (p : Nat) (s : Bytes) : (scriptFrom changes p s).Sorted := by
  have hpos (p : Nat) (s : Bytes) : ∀ c ∈ (scriptFrom changes p s).changes, (p : Int) ≤ c.position := by
    intro c hc
    have hk : c ∈ keyed c.key (scriptFrom changes p s).changes := List.mem_filter.mpr ⟨hc, by simp⟩
    rw [keyed_scriptFrom] at hk
    split_ifs at hk with h
    · exact h.1
    · simp at hk
  have hat (p : Nat) : (editsAt changes p).Pairwise (fun a b => b.before a) := by
    refine List.pairwise_append.mpr ⟨?_, ?_, ?_⟩
    · refine List.pairwise_iff_forall_sublist.mpr ?_
      intro a b hab
      have ha := (mem_keyed_insert valid).mp (hab.subset (by simp : a ∈ [a, b]))
      have hb := (mem_keyed_insert valid).mp (hab.subset (by simp : b ∈ [a, b]))
      exact Change.before_of_key_eq (by simp [Change.key, ha.2.1, hb.2.1, ha.2.2, hb.2.2])
    · refine List.pairwise_iff_forall_sublist.mpr ?_
      intro a b hab
      have ha := (mem_keyed_replace valid).mp (hab.subset (by simp : a ∈ [a, b]))
      have hb := (mem_keyed_replace valid).mp (hab.subset (by simp : b ∈ [a, b]))
      exact Change.before_of_key_eq (by simp [Change.key, ha.2.1, hb.2.1, ha.2.2, hb.2.2])
    · intro a ha b hb
      have ha := (mem_keyed_insert valid).mp ha
      have hb := (mem_keyed_replace valid).mp hb
      simp [Change.before, ha.2.1, ha.2.2, hb.2.1, hb.2.2, Mode.code]
  have hsame (p : Nat) : ∀ c ∈ editsAt changes p, c.position = p := by
    intro c hc
    rcases List.mem_append.mp hc with hc | hc
    · exact ((mem_keyed_insert valid).mp hc).2.2
    · exact ((mem_keyed_replace valid).mp hc).2.2
  induction s generalizing p with
  | nil =>
    unfold Script.Sorted
    rw [scriptFrom, Script.changes_edits]
    exact hat p
  | cons b s ih =>
    have hbyte : Script.changes (if covered changes p then [] else [.keep [b]]) = [] := by
      split_ifs <;> simp
    unfold Script.Sorted
    simp only [scriptFrom, Script.changes_append, Script.changes_edits, hbyte, List.append_nil]
    refine List.pairwise_append.mpr ⟨hat p, ih (p + 1), ?_⟩
    intro a ha b hb
    have h1 := hsame p a ha
    have h2 := hpos (p + 1) s b hb
    simp only [Change.before, Bool.or_eq_true, decide_eq_true_eq]
    omega

omit valid in
/-- Replacements do not overlap: none but `r` reaches over an offset inside `r`. -/
theorem Separate.not_crossing {r r' : Change} {p : Nat} (hr : r ∈ changes) (hr' : r' ∈ changes)
    (hm : r.mode = .replace) (hm' : r'.mode = .replace) (hp : r.position ≤ p) (hs : p < r.stop)
    (hp' : r'.position ≤ p) (hs' : p < r'.stop) : r = r' := by
  have h1 := sep.apart r hr r' hr' hm hm'
  have h2 := sep.apart r' hr' r hr hm' hm
  exact sep.unique hr hr' hm hm' (by omega)

omit valid in
theorem Resumes.succ_crossing {p q : Nat} {r : Change} (hr : r ∈ changes) (hm : r.mode = .replace)
    (hp : r.position ≤ p) (hs : p < r.stop) (hq : r.stop = q) : Resumes changes (p + 1) q := by
  by_cases h : p + 1 < q
  · exact Or.inl ⟨r, hr, hm, by push_cast; omega, by push_cast; omega, hq⟩
  · refine Or.inr ⟨by omega, ?_⟩
    rintro r' hr' hm' ⟨h1, h2⟩
    have := sep.not_crossing hr hr' hm hm' hp hs (by push_cast at h1; omega) (by push_cast at h2; omega)
    subst this
    push_cast at h2
    omega

omit valid sep in
theorem Resumes.succ_of_not_covered {p : Nat} (h : ¬covered changes p = true) :
    Resumes changes (p + 1) (p + 1) := by
  refine Or.inr ⟨rfl, ?_⟩
  rintro r hr hm ⟨h1, h2⟩
  push_cast at h1 h2
  exact h ((covered_iff changes p).mpr ⟨r, hr, hm, by omega, by omega⟩)

theorem editsAt_of_crossing {p : Nat} {r : Change} (hr : r ∈ changes) (hm : r.mode = .replace)
    (hp : r.position < p) (hs : p < r.stop) : editsAt changes p = [] := by
  have hins : keyed ((p : Int), 0) changes = [] := by
    refine List.eq_nil_iff_forall_not_mem.mpr fun c hc => ?_
    obtain ⟨hc, hcm, hcp⟩ := (mem_keyed_insert valid).mp hc
    exact sep.outside r hr c hc hm hcm (by omega)
  have hrep : keyed ((p : Int), 1) changes = [] := by
    refine List.eq_nil_iff_forall_not_mem.mpr fun c hc => ?_
    obtain ⟨hc, hcm, hcp⟩ := (mem_keyed_replace valid).mp hc
    have := sep.apart r hr c hc hm hcm (by omega)
    omega
  rw [editsAt, hins, hrep]
  rfl

/-- The script accounts for the content from an offset on. -/
def Consumes (content : Bytes) (q : Nat) (script : Script) : Prop :=
  script.Fits q ∧ script.source = content.drop q

omit sep in
/-- A replacement at an offset that nothing covers replaces nothing. -/
theorem removed_eq_nil {q : Nat} (hcov : ¬covered changes q = true) :
    ∀ c ∈ keyed ((q : Int), 1) changes, c.removed = [] := by
  intro c hc
  obtain ⟨hc, hm, hp⟩ := (mem_keyed_replace valid).mp hc
  rw [Change.removed, if_pos hm]
  by_contra hne
  have hlen := List.length_pos_iff.mpr hne
  refine hcov ((covered_iff changes q).mpr ⟨c, hc, hm, by omega, ?_⟩)
  simp only [Change.stop, hm, if_true]
  omega

omit sep in
/-- The insertions at an offset take nothing of the content. -/
theorem consumes_inserts {q : Nat} {script : Script}
    (h : Consumes content q ((keyed ((q : Int), 1) changes).map .edit ++ script)) :
    Consumes content q ((editsAt changes q).map .edit ++ script) := by
  obtain ⟨hfits, hsource⟩ := Script.fits_inserts (fun c hc => ((mem_keyed_insert valid).mp hc).2) h.1
  rw [editsAt, List.map_append, List.append_assoc]
  exact ⟨hfits, hsource.trans h.2⟩

/-- At an offset that is not covered the content is left as it is. -/
theorem consumes_uncovered {q : Nat} {script : Script} (hcov : ¬covered changes q = true)
    (h : Consumes content q script) : Consumes content q ((editsAt changes q).map .edit ++ script) := by
  refine consumes_inserts valid ?_
  have hremoved := removed_eq_nil valid hcov
  rcases keyed_replace_cases valid sep q with hnone | ⟨r, hr, hm, hp, hone⟩
  · rw [hnone]
    exact h
  · have hempty : r.removed = [] := hremoved r (by simp [hone])
    rw [hone]
    simpa [Consumes, Script.Fits, hm, hp, hempty] using h

/-- The replacement that begins at an offset takes what it removes. -/
theorem consumes_replaced {q : Nat} {r : Change} {script : Script} (hr : r ∈ changes) (hm : r.mode = .replace)
    (hpq : r.position = q) (h : Consumes content (q + r.remove.length) script) :
    Consumes content q ((editsAt changes q).map .edit ++ script) := by
  refine consumes_inserts valid ?_
  have hlist : keyed ((q : Int), 1) changes = [r] := by
    have hmem : r ∈ keyed ((q : Int), 1) changes := (mem_keyed_replace valid).mpr ⟨hr, hm, hpq⟩
    rcases keyed_replace_cases valid sep q with hnone | ⟨r', _, _, _, hone⟩
    · simp [hnone] at hmem
    · rw [hone] at hmem ⊢
      rw [List.mem_singleton.mp hmem]
  have hremoved : r.removed = r.remove := by simp [Change.removed, hm]
  have hstop : r.stop = ((q + r.remove.length : Nat) : Int) := by simp [Change.stop, hm, hpq]
  have hfound := sep.found r hr hm
  rw [hpq, hstop, Int.toNat_natCast, Int.toNat_natCast] at hfound
  have hsplit : r.remove ++ content.drop (q + r.remove.length) = content.drop q := by
    have htake : (content.drop q).take r.remove.length = r.remove := by
      rw [List.take_drop]
      exact hfound
    rw [← List.drop_drop]
    nth_rewrite 1 [← htake]
    exact List.take_append_drop _ _
  rw [hlist]
  simp only [Consumes, List.map_cons, List.map_nil, List.cons_append, List.nil_append, Script.Fits,
    Script.source_edit, hremoved]
  exact ⟨⟨hpq, Or.inr hm, h.1⟩, by rw [h.2, hsplit]⟩

/-- The pass consumes the content: kept bytes and removed texts are what lies from `q` on. -/
theorem scriptFrom_fits {p q : Nat} {s : Bytes} (hs : content.drop p = s)
    (hlen : p + s.length = content.length) (hq : Resumes changes p q) :
    (scriptFrom changes p s).Fits q ∧ (scriptFrom changes p s).source = content.drop q := by
  induction s generalizing p q with
  | nil =>
    -- no change reaches behind the end
    have hend : ∀ r ∈ changes, ¬(p : Int) < r.stop := by
      intro r hr
      have hstop := stop_le_of_separate valid sep hr
      rw [List.length_nil] at hlen
      omega
    rcases hq with ⟨r, hr, hm, h1, h2, h3⟩ | ⟨rfl, hno⟩
    · exact absurd h2 (hend r hr)
    · have hcov : ¬covered changes q = true := by
        intro hcov
        obtain ⟨r, hr, -, -, hstop⟩ := (covered_iff changes q).mp hcov
        exact hend r hr hstop
      have hnil : Consumes content q [] := ⟨trivial, hs.symm⟩
      have h := consumes_uncovered valid sep hcov hnil
      rwa [List.append_nil] at h
  | cons b s ih =>
    have hdrop : content.drop (p + 1) = s := by rw [List.drop_add_one_eq_tail_drop, hs]; rfl
    have hlen' : p + 1 + s.length = content.length := by simp only [List.length_cons] at hlen; omega
    rcases hq with ⟨r, hr, hm, h1, h2, h3⟩ | ⟨rfl, hno⟩
    · have hcov : covered changes p = true := (covered_iff _ _).mpr ⟨r, hr, hm, by omega, h2⟩
      simp only [scriptFrom, editsAt_of_crossing valid sep hr hm h1 h2, hcov, if_true,
        List.map_nil, List.nil_append]
      exact ih hdrop hlen' (.succ_crossing sep hr hm (by omega) h2 h3)
    · rw [scriptFrom, List.append_assoc]
      by_cases hcov : covered changes q = true
      · obtain ⟨r, hr, hm, hp, hstop⟩ := (covered_iff _ _).mp hcov
        have hpq : r.position = q := by
          have := hno r hr hm
          omega
        have hstop' : r.stop = ((q + r.remove.length : Nat) : Int) := by simp [Change.stop, hm, hpq]
        rw [if_pos hcov]
        exact consumes_replaced valid sep hr hm hpq (ih hdrop hlen' (.succ_crossing sep hr hm hp hstop hstop'))
      · obtain ⟨hfits, hsource⟩ := ih hdrop hlen' (.succ_of_not_covered hcov)
        have hkeep : b :: content.drop (q + 1) = content.drop q := by rw [hs, hdrop]
        rw [if_neg hcov]
        refine consumes_uncovered valid sep hcov ⟨hfits, ?_⟩
        simpa [hsource] using hkeep

end Pass

/-- Changes that fit the content and stay apart all take effect at once, as if none of them
moved the places of the others. -/
theorem applyChanges_eq_merge {content : Bytes} {changes : List Change}
    (valid : validate changes content.length = .ok ()) (sep : Separate content changes) :
    applyChanges content changes = .ok (merge content changes) := by
  have hstart : Resumes changes 0 0 := by
    refine Or.inr ⟨rfl, ?_⟩
    rintro r hr _ ⟨h, _⟩
    have := (validate_ok valid r hr).1
    omega
  obtain ⟨hfits, hsource⟩ := scriptFrom_fits valid sep (p := 0) (s := content) rfl (by simp) hstart
  have hkeys : ∀ k, keyed k changes = keyed k (scriptFrom changes 0 content).changes := by
    intro k
    rw [keyed_scriptFrom]
    split_ifs with h
    · rfl
    · exact keyed_eq_nil valid sep (by simpa using h)
  have happly := Script.applyChanges_eq hfits (scriptFrom_sorted valid 0 content) hkeys
  rw [hsource, target_scriptFrom valid sep] at happly
  exact happly

/-- Insertions at both ends of a replaced range, at one offset and at the end of the content,
and a replacement of nothing. -/
theorem applyChanges_eq_merge_ends :
    applyChanges (bytes "abcdef")
        [.insert 4 "x", .replace 2 "cd" "R", .insert 2 "y", .insert 2 "z", .replace 4 [] "e",
          .insert 6 "w"] =
      .ok (merge (bytes "abcdef")
        [.insert 4 "x", .replace 2 "cd" "R", .insert 2 "y", .insert 2 "z", .replace 4 [] "e",
          .insert 6 "w"]) :=
  applyChanges_eq_merge (by decide)
    ⟨by decide, by decide, by decide, by decide⟩

example : merge (bytes "abcdef")
    [.insert 4 "x", .replace 2 "cd" "R", .insert 2 "y", .insert 2 "z", .replace 4 [] "e",
      .insert 6 "w"] = bytes "abyzRxeefw" := by decide

end Codemod.Edit
