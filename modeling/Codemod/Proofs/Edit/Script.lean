import Codemod.Edit.Change
import Mathlib.Data.List.Sort
import Mathlib.Data.List.Pairwise

namespace Codemod.Edit

/-- What decides the order of application: changes with one key keep the order of the list. -/
def Change.key (c : Change) : Int × Int := (c.position, c.mode.code)

/-- The changes of one key, in the order of the list. -/
def keyed (k : Int × Int) (changes : List Change) : List Change := changes.filter (·.key = k)

theorem Change.before_trans (a b c : Change) (hab : a.before b) (hbc : b.before c) : a.before c := by
  simp only [Change.before, Bool.or_eq_true, Bool.and_eq_true, decide_eq_true_eq, beq_iff_eq] at *
  omega

theorem Change.before_total (a b : Change) : a.before b || b.before a := by
  simp only [Change.before, Bool.or_eq_true, Bool.and_eq_true, decide_eq_true_eq, beq_iff_eq]
  omega

theorem Change.before_of_key_eq {a b : Change} (h : a.key = b.key) : a.before b := by
  simp only [Change.key, Prod.mk.injEq] at h
  simp [Change.before, h.1, h.2]

theorem Change.key_eq_of_before {a b : Change} (hab : a.before b) (hba : b.before a) :
    a.key = b.key := by
  simp only [Change.before, Bool.or_eq_true, Bool.and_eq_true, decide_eq_true_eq, beq_iff_eq] at hab hba
  simp only [Change.key, Prod.mk.injEq]
  omega

theorem sortChanges_pairwise (changes : List Change) :
    (sortChanges changes).Pairwise (fun a b => a.before b) :=
  List.pairwise_mergeSort Change.before_trans Change.before_total _

/-- Sorting is stable: the changes of one key come out last one first. -/
theorem keyed_sortChanges (k : Int × Int) (changes : List Change) :
    keyed k (sortChanges changes) = (keyed k changes).reverse := by
  have hp : (keyed k changes.reverse).Pairwise (fun a b => a.before b) := by
    refine List.Pairwise.imp_of_mem ?_ (List.pairwise_of_forall (R := fun _ _ => True) (fun _ _ => trivial))
    intro a b ha hb _
    have ha' : a.key = k := by simpa using (List.mem_filter.mp ha).2
    have hb' : b.key = k := by simpa using (List.mem_filter.mp hb).2
    exact Change.before_of_key_eq (ha'.trans hb'.symm)
  have hs : (keyed k changes.reverse).Sublist (sortChanges changes) :=
    List.sublist_mergeSort Change.before_trans Change.before_total hp List.filter_sublist
  have hf : (keyed k changes.reverse).Sublist (keyed k (sortChanges changes)) := by
    have := hs.filter (·.key = k)
    simpa [keyed, List.filter_filter] using this
  have hl : (keyed k (sortChanges changes)).length = (keyed k changes.reverse).length :=
    ((List.mergeSort_perm _ _).filter _).length_eq
  rw [← hf.eq_of_length hl.symm]
  simp [keyed, List.filter_reverse]

/-- A sorted list is known by the changes that it has of each key. -/
theorem eq_of_keyed_eq {s t : List Change} (hs : s.Pairwise (fun a b => a.before b))
    (ht : t.Pairwise (fun a b => a.before b)) (h : ∀ k, keyed k s = keyed k t) : s = t := by
  induction s generalizing t with
  | nil =>
    cases t with
    | nil => rfl
    | cons b t => simpa [keyed] using h b.key
  | cons a s ih =>
    cases t with
    | nil => simpa [keyed] using h a.key
    | cons b t =>
      have hmem (x : Change) : x ∈ a :: s ↔ x ∈ b :: t := by
        have hx := h x.key
        constructor
        · intro hm
          have : x ∈ keyed x.key (a :: s) := List.mem_filter.mpr ⟨hm, by simp⟩
          exact (List.mem_filter.mp (hx ▸ this)).1
        · intro hm
          have : x ∈ keyed x.key (b :: t) := List.mem_filter.mpr ⟨hm, by simp⟩
          exact (List.mem_filter.mp (hx ▸ this)).1
      have hab : a.before b := by
        rcases List.mem_cons.mp ((hmem b).mpr (by simp)) with rfl | hb
        · exact Change.before_of_key_eq rfl
        · exact (List.pairwise_cons.mp hs).1 b hb
      have hba : b.before a := by
        rcases List.mem_cons.mp ((hmem a).mp (by simp)) with rfl | ha
        · exact Change.before_of_key_eq rfl
        · exact (List.pairwise_cons.mp ht).1 a ha
      have hk : b.key = a.key := Change.key_eq_of_before hba hab
      have heq : a = b := by
        have := h a.key
        simp only [keyed, List.filter_cons, hk, decide_true, if_true] at this
        exact (List.cons.inj this).1
      subst heq
      congr 1
      refine ih (List.pairwise_cons.mp hs).2 (List.pairwise_cons.mp ht).2 ?_
      intro k
      have := h k
      simp only [keyed, List.filter_cons] at this
      split at this
      · exact (List.cons.inj this).2
      · exact this

/-- The order of application depends only on the changes of each key. -/
theorem sortChanges_congr {s t : List Change} (h : ∀ k, keyed k s = keyed k t) :
    sortChanges s = sortChanges t := by
  refine eq_of_keyed_eq (sortChanges_pairwise s) (sortChanges_pairwise t) ?_
  intro k
  rw [keyed_sortChanges, keyed_sortChanges, h k]

theorem Change.stop_cases (c : Change) :
    c.mode ≠ .replace ∧ c.stop = c.position ∨ c.mode = .replace ∧ c.stop = c.position + c.remove.length := by
  unfold stop
  split
  · next h => exact Or.inr ⟨h, rfl⟩
  · next h => exact Or.inl ⟨h, rfl⟩

theorem Change.wraps_iff {c : Change} : c.wraps = true ↔ c.position < 0x8000000000000000 ∧ 0x8000000000000000 ≤ c.stop := by
  rw [wraps, Bool.and_eq_true, decide_eq_true_iff, decide_eq_true_iff]

/-- An end that does not wrap around is the end that is meant. -/
theorem Change.wraps_of_stop64_ne {c : Change} (h : c.stop64 ≠ c.stop) : c.wraps = true :=
  Decidable.byContradiction fun hwraps => h (if_neg hwraps)

theorem Change.stop64_le (c : Change) : c.stop64 ≤ c.stop := by
  unfold stop64
  split_ifs with hwraps
  · have hstop := (wraps_iff.mp hwraps).2
    rw [Int.bmod_def]
    omega
  · exact le_rfl

/-- The end of a replacement that finds its text lies in the buffer. -/
theorem Change.not_crossing_of_found {c : Change} {buffer : Bytes}
    (hfound : c.mode = .replace → buffer.slice c.position.toNat c.stop.toNat = c.remove) :
    ¬(c.wraps ∧ (buffer.length : Int) < c.stop) := by
  rintro ⟨hwraps, hlt⟩
  obtain ⟨hpos, hstop⟩ := wraps_iff.mp hwraps
  rcases c.stop_cases with ⟨-, heq⟩ | ⟨hm, heq⟩
  · omega
  · have hlen := congrArg List.length (hfound hm)
    rw [Bytes.slice, List.length_drop, List.length_take] at hlen
    omega

/-- A replacement that is not too long as far as one can add it up, and finds its text, lies in the buffer. -/
theorem Change.stop_le_of_found {c : Change} {buffer : Bytes} (hfit : c.stop64 ≤ buffer.length)
    (hfound : c.mode = .replace → buffer.slice c.position.toNat c.stop.toNat = c.remove) : c.stop ≤ buffer.length := by
  by_contra hlt
  exact not_crossing_of_found hfound ⟨wraps_of_stop64_ne (by omega), by omega⟩

theorem Change.misfit?_eq_none_iff {c : Change} {length : Nat} : c.misfit? length = none ↔
    0 ≤ c.position ∧ (c.mode = .insert ∨ c.mode = .replace) ∧ c.stop64 ≤ length := by
  unfold misfit?
  split_ifs with hneg hunknown hstop
  · exact ⟨nofun, fun h => absurd h.1 (by omega)⟩
  · exact ⟨nofun, fun h => absurd h.2.1 (by tauto)⟩
  · exact ⟨nofun, fun h => absurd h.2.2 (by omega)⟩
  · exact ⟨fun _ => ⟨by omega, by tauto, by omega⟩, fun _ => rfl⟩

theorem validate_eq_ok_iff {changes : List Change} {length : Nat} :
    validate changes length = .ok () ↔ ∀ c ∈ changes, c.misfit? length = none := by
  have hfind : (changes.findSome? fun c => (c.misfit? length).map (InvalidChange.mk c)) = none ↔
      ∀ c ∈ changes, c.misfit? length = none := by
    simp [List.findSome?_eq_none_iff]
  rw [← hfind]
  unfold validate
  split
  · next e he => simp [he]
  · next hnone => simp [hnone]

theorem splice_eq_ok_iff {buffer next : Bytes} {c : Change} : splice buffer c = .ok next ↔
    (c.mode = .replace → buffer.slice c.position.toNat c.stop.toNat = c.remove) ∧
      buffer.take c.position.toNat ++ (c.text ++ buffer.drop c.stop.toNat) = next := by
  unfold splice
  dsimp only
  constructor
  · intro h
    split_ifs at h with hcross hmissed
    exact ⟨fun hm => by_contra fun hne => hmissed ⟨hm, hne⟩, Except.ok.inj h⟩
  · rintro ⟨hfound, rfl⟩
    rw [if_neg (Change.not_crossing_of_found hfound), if_neg fun h => h.2 (hfound h.1)]

/-- A stretch of a content that is to be edited: kept as it is, or a change at this place. -/
inductive Segment where
  | keep (text : Bytes)
  | edit (change : Change)

/-- What a change takes away. -/
def Change.removed (c : Change) : Bytes := if c.mode = .replace then c.remove else []

def Segment.source : Segment → Bytes
  | keep text => text
  | edit c => c.removed

def Segment.target : Segment → Bytes
  | keep text => text
  | edit c => c.text

/-- A content cut into stretches, from left to right. -/
abbrev Script := List Segment

namespace Script

/-- The content before the edits. -/
def source (s : Script) : Bytes := s.flatMap Segment.source

/-- The content after the edits. -/
def target (s : Script) : Bytes := s.flatMap Segment.target

/-- The changes from left to right. -/
def changes (s : Script) : List Change := s.filterMap fun
  | .keep _ => none
  | .edit c => some c

@[simp] theorem source_nil : source [] = [] := rfl
@[simp] theorem target_nil : target [] = [] := rfl
@[simp] theorem changes_nil : changes [] = [] := rfl

@[simp] theorem source_keep (text : Bytes) (s : Script) :
    source (.keep text :: s) = text ++ s.source := rfl
@[simp] theorem target_keep (text : Bytes) (s : Script) :
    target (.keep text :: s) = text ++ s.target := rfl
@[simp] theorem changes_keep (text : Bytes) (s : Script) : changes (.keep text :: s) = s.changes := rfl

@[simp] theorem source_edit (c : Change) (s : Script) :
    source (.edit c :: s) = c.removed ++ s.source := rfl
@[simp] theorem target_edit (c : Change) (s : Script) :
    target (.edit c :: s) = c.text ++ s.target := rfl
@[simp] theorem changes_edit (c : Change) (s : Script) : changes (.edit c :: s) = c :: s.changes := rfl

@[simp] theorem source_append (s t : Script) : source (s ++ t) = s.source ++ t.source :=
  List.flatMap_append
@[simp] theorem target_append (s t : Script) : target (s ++ t) = s.target ++ t.target :=
  List.flatMap_append
@[simp] theorem changes_append (s t : Script) : changes (s ++ t) = s.changes ++ t.changes :=
  List.filterMap_append

/-- Every change stands at the offset at which its stretch begins, the first stretch at `p`. -/
def Fits (p : Nat) : Script → Prop
  | [] => True
  | .keep text :: s => Fits (p + text.length) s
  | .edit c :: s =>
    c.position = p ∧ (c.mode = .insert ∨ c.mode = .replace) ∧ Fits (p + c.removed.length) s

@[simp] theorem fits_nil (p : Nat) : Fits p [] := trivial

@[simp] theorem fits_keep (p : Nat) (text : Bytes) (s : Script) :
    Fits p (.keep text :: s) ↔ Fits (p + text.length) s := Iff.rfl

theorem fits_append {p : Nat} {s t : Script} :
    Fits p (s ++ t) ↔ Fits p s ∧ Fits (p + s.source.length) t := by
  induction s generalizing p with
  | nil => simp
  | cons x s ih =>
    cases x with
    | keep text => simp [Fits, ih, Nat.add_assoc]
    | edit c => simp [Fits, ih, Nat.add_assoc, and_assoc]

theorem splice_at (pre post : Bytes) (c : Change) (hp : c.position = pre.length)
    (hm : c.mode = .insert ∨ c.mode = .replace) :
    splice (pre ++ (c.removed ++ post)) c = .ok (pre ++ (c.text ++ post)) := by
  have hstop : c.stop.toNat = pre.length + c.removed.length := by
    rcases hm with hm | hm
    · simp [Change.stop, Change.removed, hm, hp]
    · simp only [Change.stop, Change.removed, hm, hp, if_true]
      omega
  refine splice_eq_ok_iff.mpr ⟨fun hreplace => ?_, ?_⟩
  · rw [hstop, hp, Int.toNat_natCast, Change.removed, if_pos hreplace]
    simp [Bytes.slice, List.take_append]
  · rw [hstop, hp, Int.toNat_natCast]
    simp [List.drop_append]

/-- Applied from right to left, each change finds the text left of it as it was. -/
theorem foldlM_splice {p : Nat} {s : Script} (hs : s.Fits p) (pre post : Bytes)
    (hp : pre.length = p) :
    s.changes.reverse.foldlM splice (pre ++ (s.source ++ post)) = .ok (pre ++ (s.target ++ post)) := by
  induction s generalizing p pre with
  | nil => rfl
  | cons x s ih =>
    cases x with
    | keep text =>
      have h := ih hs (pre ++ text) (by simp [hp])
      simpa [List.append_assoc] using h
    | edit c =>
      obtain ⟨hc, hm, hs⟩ := hs
      have h := ih hs (pre ++ c.removed) (by simp [hp])
      simp only [changes_edit, source_edit, target_edit, List.reverse_cons, List.foldlM_append,
        List.append_assoc] at h ⊢
      rw [h]
      change List.foldlM splice (pre ++ (c.removed ++ (target s ++ post))) [c] = _
      simp only [List.foldlM_cons, List.foldlM_nil]
      rw [splice_at pre (target s ++ post) c (by omega) hm]
      rfl

theorem mode_of_fits {p : Nat} {s : Script} (hs : s.Fits p) :
    ∀ c ∈ s.changes, c.mode = .insert ∨ c.mode = .replace := by
  induction s generalizing p with
  | nil => simp
  | cons x s ih =>
    cases x with
    | keep text => exact ih hs
    | edit c =>
      intro d hd
      rcases List.mem_cons.mp hd with rfl | hd
      · exact hs.2.1
      · exact ih hs.2.2 d hd

theorem position_ge {p : Nat} {s : Script} (hs : s.Fits p) : ∀ c ∈ s.changes, (p : Int) ≤ c.position := by
  induction s generalizing p with
  | nil => simp
  | cons x s ih =>
    cases x with
    | keep text =>
      intro c hc
      have := ih hs c hc
      omega
    | edit c =>
      obtain ⟨hp, _, hs⟩ := hs
      intro d hd
      rcases List.mem_cons.mp hd with rfl | hd
      · omega
      · have := ih hs d hd
        omega

/-- From left to right: the order of application read backwards. -/
def Sorted (s : Script) : Prop := s.changes.Pairwise (fun a b => b.before a)

/-- Where replacements remove something, the changes are in order. -/
theorem sorted_of_fits {p : Nat} {s : Script} (hs : s.Fits p)
    (hr : ∀ c ∈ s.changes, c.mode = .replace → c.remove ≠ []) : s.Sorted := by
  induction s generalizing p with
  | nil => exact List.Pairwise.nil
  | cons x s ih =>
    cases x with
    | keep text => exact ih hs hr
    | edit c =>
      obtain ⟨hp, hm, hs⟩ := hs
      refine List.pairwise_cons.mpr ⟨?_, ih hs fun d hd => hr d (List.mem_cons_of_mem _ hd)⟩
      intro d hd
      have hge := position_ge hs d hd
      rcases hm with hm | hm
      · have hcode : (0 : Int) ≤ d.mode.code := by
          rcases mode_of_fits hs d hd with h | h <;> simp [h, Mode.code]
        have hzero : c.mode.code = 0 := by rw [hm]; rfl
        simp only [Change.removed, hm, reduceCtorEq, if_false, List.length_nil] at hge
        simp only [Change.before, hzero, Bool.or_eq_true, Bool.and_eq_true, decide_eq_true_eq,
          beq_iff_eq]
        omega
      · have hne : 0 < c.remove.length := List.length_pos_iff.mpr (hr c (by simp) hm)
        simp only [Change.removed, hm, if_true] at hge
        simp only [Change.before, Bool.or_eq_true, decide_eq_true_eq]
        omega
theorem stop_le {p : Nat} {s : Script} (hs : s.Fits p) :
    ∀ c ∈ s.changes, c.stop ≤ p + s.source.length := by
  induction s generalizing p with
  | nil => simp
  | cons x s ih =>
    cases x with
    | keep text =>
      intro c hc
      have := ih hs c hc
      simp only [source_keep, List.length_append]
      omega
    | edit c =>
      obtain ⟨hp, hm, hs⟩ := hs
      intro d hd
      simp only [source_edit, List.length_append]
      rcases List.mem_cons.mp hd with rfl | hd
      · rcases hm with hm | hm
        · simp [Change.stop, hm]; omega
        · simp [Change.stop, Change.removed, hm]; omega
      · have := ih hs d hd
        omega

theorem validate_of_fits {s : Script} (hs : s.Fits 0) {cs : List Change}
    (hc : ∀ c ∈ cs, c ∈ s.changes) : validate cs s.source.length = .ok () := by
  refine validate_eq_ok_iff.mpr fun c hm => Change.misfit?_eq_none_iff.mpr ?_
  have hpos := position_ge hs c (hc c hm)
  have hstop := stop_le hs c (hc c hm)
  have hstop64 := c.stop64_le
  exact ⟨by omega, mode_of_fits hs c (hc c hm), by omega⟩

/-- Changes that agree with those of a script turn its source into its target. -/
theorem applyChanges_eq {s : Script} (hs : s.Fits 0) (hsort : s.Sorted) {cs : List Change}
    (hk : ∀ k, keyed k cs = keyed k s.changes) : applyChanges s.source cs = .ok s.target := by
  have hmem : ∀ c ∈ cs, c ∈ s.changes := by
    intro c hc
    have : c ∈ keyed c.key cs := List.mem_filter.mpr ⟨hc, by simp⟩
    exact (List.mem_filter.mp (hk c.key ▸ this)).1
  have horder : sortChanges cs = s.changes.reverse := by
    rw [sortChanges_congr hk]
    exact List.mergeSort_of_pairwise (List.pairwise_reverse.mpr hsort)
  have hfold := foldlM_splice hs [] [] rfl
  simp only [List.nil_append, List.append_nil] at hfold
  simp only [applyChanges, validate_of_fits hs hmem, horder, hfold]
  rfl

end Script

/-- The change inserts the given text. -/
def Change.inserts (w : Bytes) (c : Change) : Bool := c.mode = .insert && c.text = w

/-- Changes in another order agree key by key, if those of one key can only be one text that is
not `w` followed by `w`. -/
theorem keyed_eq_of_perm {cs t : List Change} (w : Bytes) (hperm : cs.Perm t)
    (ht : t.Pairwise fun a b => a.key = b.key → a.inserts w = false ∧ b.inserts w = true)
    (hcs : cs.Pairwise fun a b => a.inserts w = true → b.inserts w = true) (k : Int × Int) :
    keyed k cs = keyed k t := by
  have hdiffer : ∀ a ∈ t, ∀ b ∈ t, a ≠ b → a.key = b.key → a.inserts w ≠ b.inserts w := by
    have hsymm : t.Pairwise fun a b => a.key = b.key → a.inserts w ≠ b.inserts w :=
      ht.imp fun h hk => by rw [(h hk).1, (h hk).2]; simp
    have : Std.Symm fun a b : Change => a.key = b.key → a.inserts w ≠ b.inserts w :=
      ⟨fun a b h hk => (h hk.symm).symm⟩
    exact fun a ha b hb hab => hsymm.forall ha hb hab
  have hkeyed : (keyed k t).Pairwise fun a b => a.inserts w = true → b.inserts w = true := by
    refine (ht.filter (·.key = k)).imp_of_mem fun {a b} ha hb h hab => ?_
    have ha' : a.key = k := by simpa using (List.mem_filter.mp ha).2
    have hb' : b.key = k := by simpa using (List.mem_filter.mp hb).2
    exact (h (ha'.trans hb'.symm)).2
  refine (hperm.filter _).eq_of_pairwise ?_ (hcs.filter _) hkeyed
  intro a b ha hb hab hba
  obtain ⟨ha, hak⟩ := List.mem_filter.mp ha
  obtain ⟨hb, hbk⟩ := List.mem_filter.mp hb
  by_contra hne
  have hkey : a.key = b.key := by
    simp only [decide_eq_true_eq] at hak hbk
    rw [hak, hbk]
  refine hdiffer a (hperm.mem_iff.mp ha) b hb hne hkey ?_
  rw [Bool.eq_iff_iff]
  exact ⟨hab, hba⟩

end Codemod.Edit
