import Codemod.Proofs.Edit.Cuts
import Codemod.Proofs.Edit.InPlace

namespace Codemod.Edit

section Apply

variable {content : Bytes} {changes : List Change}

/-- Changes listed from the front of the content to its back are applied in the opposite order. -/
theorem applyChanges_of_sorted (h : validate changes content.length = .ok ())
    (hsorted : changes.reverse.Pairwise (fun a b => a.before b = true)) :
    applyChanges content changes = changes.reverse.foldlM splice content := by
  rw [applyChanges_of_valid h, sortChanges, List.mergeSort_of_pairwise hsorted]

theorem applyChanges_eq_ok_iff (h : validate changes content.length = .ok ()) {buffer : Bytes} :
    applyChanges content changes = .ok buffer ↔ (sortChanges changes).foldlM splice content = .ok buffer := by
  rw [applyChanges_of_valid h]

/-- Changes that fit one by one are not applied: there is a conflict, or a crash at an end that wraps around. -/
def Refused (content : Bytes) (changes : List Change) : Prop :=
  (∃ e, applyChanges content changes = .error (.conflict e)) ∨
    ∃ c ∈ changes, c.wraps ∧ applyChanges content changes = .error (.crash c.stop64)

theorem ok_or_refused (h : validate changes content.length = .ok ()) :
    (∃ next, applyChanges content changes = .ok next) ∨ Refused content changes := by
  unfold Refused
  rw [applyChanges_of_valid h]
  cases hfold : (sortChanges changes).foldlM splice content with
  | ok next => exact Or.inl ⟨next, rfl⟩
  | error e =>
    obtain ⟨pre, c, post, buffer, hsort, -, hstep⟩ := foldlM_eq_error_iff.mp hfold
    have hc : c ∈ sortChanges changes := by simp [hsort]
    rcases splice_error hstep with ⟨x, rfl⟩ | ⟨hwraps, -, rfl⟩
    · exact Or.inr (Or.inl ⟨x, rfl⟩)
    · exact Or.inr (Or.inr ⟨c, (sortChanges_perm changes).mem_iff.mp hc, hwraps, rfl⟩)

theorem Refused.ne_ok (h : Refused content changes) (next : Bytes) : applyChanges content changes ≠ .ok next := by
  rcases h with ⟨e, h⟩ | ⟨c, -, -, h⟩ <;> rw [h] <;> exact nofun

theorem Refused.ne_invalid (h : Refused content changes) (e : InvalidChange) :
    applyChanges content changes ≠ .error (.invalid e) := by
  rcases h with ⟨e', h⟩ | ⟨c, -, -, h⟩ <;> rw [h] <;> exact nofun

/-- The change that is applied first stands furthest back. -/
theorem exists_first {c : Change} (hc : c ∈ changes) :
    ∃ first rest, sortChanges changes = first :: rest ∧ first ∈ changes ∧ c.position ≤ first.position := by
  have hperm := sortChanges_perm changes
  cases hsort : sortChanges changes with
  | nil =>
    rw [hsort] at hperm
    rw [hperm.symm.eq_nil] at hc
    cases hc
  | cons first rest =>
    rw [hsort] at hperm
    refine ⟨first, rest, rfl, hperm.mem_iff.mp List.mem_cons_self, ?_⟩
    rcases List.mem_cons.mp (hperm.mem_iff.mpr hc) with rfl | hrest
    · exact le_rfl
    · exact position_le_of_before ((List.pairwise_cons.mp (hsort ▸ sortChanges_pairwise changes)).1 c hrest)

/-- Changes that are applied all start in the content. -/
theorem position_le_of_ok (hvalid : validate changes content.length = .ok ()) {next : Bytes}
    (h : applyChanges content changes = .ok next) {c : Change} (hc : c ∈ changes) : c.position ≤ content.length := by
  obtain ⟨first, rest, hsort, hfirst, hle⟩ := exists_first hc
  rw [applyChanges_of_valid hvalid, hsort, List.foldlM_cons] at h
  obtain ⟨middle, hstep, -⟩ := exists_of_bind_eq_ok h
  have hstop := Change.stop_le_of_found (validate_ok hvalid first hfirst).2.2 (splice_eq_ok_iff.mp hstep).1
  exact hle.trans (first.position_le_stop.trans hstop)

end Apply

/-- Among changes that fit, a position and a mode are a key. -/
theorem Change.key_eq_iff {c : Change} (hmode : c.mode = .insert ∨ c.mode = .replace) (k : Int × Int) :
    c.key = k ↔ c.position = k.1 ∧ c.mode = Mode.ofCode k.2 := by
  obtain ⟨p, code⟩ := k
  have hcode : c.mode.code = code ↔ c.mode = Mode.ofCode code := by
    unfold Mode.ofCode
    rcases hmode with hm | hm
    all_goals
      rw [hm]
      split_ifs with h0 h1 <;> simp [Mode.code, *, eq_comm]
  simp only [Change.key, Prod.mk.injEq, hcode]

theorem keyed_eq_filter {changes : List Change} (hmode : ∀ c ∈ changes, c.mode = .insert ∨ c.mode = .replace)
    (k : Int × Int) :
    keyed k changes = changes.filter fun c => c.position = k.1 ∧ c.mode = Mode.ofCode k.2 := by
  refine List.filter_congr fun c hc => ?_
  simp only [decide_eq_decide]
  exact Change.key_eq_iff (hmode c hc) k

/-- The changes that are made ahead of `r`, which stands between `front` and `back` in the list. -/
def ahead (front : List Change) (r : Change) (back : List Change) : List Change :=
  front.filter (!r.before ·) ++ back.filter (·.before r)

/-- The changes that are made after `r`. -/
def behind (front : List Change) (r : Change) (back : List Change) : List Change :=
  front.filter (r.before ·) ++ back.filter (!·.before r)

section Order

variable {front back changes : List Change} {r x : Change}

/-- The order of application, on keys. -/
def keyBefore (j k : Int × Int) : Bool := k.1 < j.1 || (j.1 == k.1 && k.2 ≤ j.2)

theorem keyBefore_self (k : Int × Int) : keyBefore k k = true := by simp [keyBefore]

theorem keyBefore_of_ne {j k : Int × Int} (h : j ≠ k) : keyBefore j k = !keyBefore k j := by
  obtain ⟨p, m⟩ := j
  obtain ⟨q, n⟩ := k
  have hne : p = q → m ≠ n := fun hp hm => h (by rw [hp, hm])
  rw [Bool.eq_iff_iff]
  simp only [keyBefore, Bool.or_eq_true, Bool.and_eq_true, decide_eq_true_eq, beq_iff_eq, Bool.not_eq_true',
    Bool.or_eq_false_iff, Bool.and_eq_false_iff, decide_eq_false_iff_not, beq_eq_false_iff_ne]
  omega

theorem keyed_append (k : Int × Int) (s t : List Change) : keyed k (s ++ t) = keyed k s ++ keyed k t :=
  List.filter_append ..

theorem keyed_cons_self (r : Change) (s : List Change) : keyed r.key (r :: s) = r :: keyed r.key s := by
  simp [keyed]

/-- A choice by keys takes all changes of a key or none. -/
theorem keyed_filter_key (f : Int × Int → Bool) (k : Int × Int) (s : List Change) :
    keyed k (s.filter (f ·.key)) = if f k then keyed k s else [] := by
  rw [keyed, List.filter_filter]
  split_ifs with hf
  · refine List.filter_congr fun x _ => ?_
    by_cases hkey : x.key = k <;> simp [hkey, hf]
  · refine List.filter_eq_nil_iff.mpr fun x _ hx => ?_
    simp only [Bool.and_eq_true, decide_eq_true_eq] at hx
    exact hf (hx.1 ▸ hx.2)

theorem keyed_ahead (k : Int × Int) : keyed k (ahead front r back) =
    (if keyBefore r.key k then [] else keyed k front) ++ if keyBefore k r.key then keyed k back else [] := by
  have hfront := keyed_filter_key (!keyBefore r.key ·) k front
  have hback := keyed_filter_key (keyBefore · r.key) k back
  rw [ahead, keyed_append]
  refine congrArg₂ (· ++ ·) (hfront.trans ?_) hback
  cases keyBefore r.key k <;> rfl

theorem keyed_behind (k : Int × Int) : keyed k (behind front r back) =
    (if keyBefore r.key k then keyed k front else []) ++ if keyBefore k r.key then [] else keyed k back := by
  have hfront := keyed_filter_key (keyBefore r.key ·) k front
  have hback := keyed_filter_key (!keyBefore · r.key) k back
  rw [behind, keyed_append]
  refine congrArg₂ (· ++ ·) hfront (hback.trans ?_)
  cases keyBefore k r.key <;> rfl

theorem mem_of_mem_ahead (h : x ∈ ahead front r back) : x ∈ front ++ r :: back := by
  rcases List.mem_append.mp h with h | h
  · exact List.mem_append_left _ (List.mem_filter.mp h).1
  · exact List.mem_append_right _ (List.mem_cons_of_mem r (List.mem_filter.mp h).1)

theorem before_of_mem_ahead (h : x ∈ ahead front r back) : x.before r := by
  have htotal := Change.before_total r x
  rcases List.mem_append.mp h with h | h
  · have hnot : r.before x = false := by simpa using (List.mem_filter.mp h).2
    rwa [hnot, Bool.false_or] at htotal
  · simpa using (List.mem_filter.mp h).2

theorem before_of_mem_behind (h : x ∈ behind front r back) : r.before x := by
  have htotal := Change.before_total r x
  rcases List.mem_append.mp h with h | h
  · simpa using (List.mem_filter.mp h).2
  · have hnot : x.before r = false := by simpa using (List.mem_filter.mp h).2
    rwa [hnot, Bool.or_false] at htotal

theorem mem_ahead_of_lt (h : x ∈ front ++ back) (hlt : r.position < x.position) : x ∈ ahead front r back := by
  have hbefore : x.before r = true ∧ r.before x = false := by
    simp only [Change.before, Bool.or_eq_true, Bool.and_eq_true, decide_eq_true_eq, beq_iff_eq,
      Bool.or_eq_false_iff, Bool.and_eq_false_iff, decide_eq_false_iff_not, beq_eq_false_iff_ne]
    omega
  rcases List.mem_append.mp h with h | h
  · exact List.mem_append_left _ (List.mem_filter.mpr ⟨h, by simp [hbefore.2]⟩)
  · exact List.mem_append_right _ (List.mem_filter.mpr ⟨h, hbefore.1⟩)

/-- The order of application parts at each change of the list. -/
theorem sortChanges_split (front : List Change) (r : Change) (back : List Change) :
    sortChanges (front ++ r :: back) =
      sortChanges (ahead front r back) ++ r :: sortChanges (behind front r back) := by
  refine eq_of_keyed_eq (sortChanges_pairwise _) ?_ fun k => ?_
  · refine List.pairwise_append.mpr ⟨sortChanges_pairwise _, List.pairwise_cons.mpr ⟨?_, sortChanges_pairwise _⟩, ?_⟩
    · exact fun x hx => before_of_mem_behind ((sortChanges_perm _).mem_iff.mp hx)
    · intro x hx y hy
      have hxr := before_of_mem_ahead ((sortChanges_perm _).mem_iff.mp hx)
      rcases List.mem_cons.mp hy with rfl | hy
      · exact hxr
      · exact Change.before_trans _ _ _ hxr (before_of_mem_behind ((sortChanges_perm _).mem_iff.mp hy))
  · have hcons (s : List Change) : keyed k (r :: s) = (if r.key = k then [r] else []) ++ keyed k s := by
      rw [keyed, List.filter_cons]
      split_ifs with h1 h2 h2 <;> simp_all [keyed]
    rw [keyed_append, hcons, keyed_sortChanges, keyed_sortChanges, keyed_sortChanges, keyed_append, hcons,
      keyed_ahead, keyed_behind]
    by_cases hk : r.key = k
    · subst hk
      simp [keyBefore_self]
    · rw [keyBefore_of_ne hk, if_neg hk]
      cases keyBefore k r.key <;> simp

/-- A place of `r` in a list is known by the number of changes of its key before it. -/
theorem eq_of_keyed_length {pre post pre' post' : List Change} (h : pre ++ r :: post = pre' ++ r :: post')
    (hlen : (keyed r.key pre).length = (keyed r.key pre').length) : pre = pre' := by
  rcases List.append_eq_append_iff.mp h with ⟨m, rfl, hm⟩ | ⟨m, rfl, hm⟩
  all_goals
    cases m with
    | nil => simp
    | cons y m =>
      obtain ⟨rfl, -⟩ := List.cons.inj hm
      rw [keyed_append, keyed_cons_self, List.length_append, List.length_cons] at hlen
      omega

/-- Each place in the order of application is that of a change of the list. -/
theorem exists_split {pre post : List Change} (h : sortChanges changes = pre ++ r :: post) :
    ∃ front back, changes = front ++ r :: back ∧ sortChanges (ahead front r back) = pre := by
  -- Cut the list where as many changes of the key are left as stand ahead of `r`.
  have hkeyed : keyed r.key changes = (keyed r.key post).reverse ++ r :: (keyed r.key pre).reverse := by
    have hsort := keyed_sortChanges r.key changes
    rw [h, keyed_append, keyed_cons_self] at hsort
    rw [← List.reverse_eq_iff.mpr hsort]
    simp
  obtain ⟨s, t, rfl, -, ht⟩ := List.filter_eq_append_iff.mp hkeyed
  obtain ⟨between, back, rfl, -, -, hback⟩ := List.filter_eq_cons_iff.mp ht
  refine ⟨s ++ between, back, (List.append_assoc ..).symm, ?_⟩
  rw [← List.append_assoc, sortChanges_split] at h
  refine eq_of_keyed_length h ?_
  have hlen : (keyed r.key back).length = (keyed r.key pre).length := by
    rw [keyed, hback, List.length_reverse]
  simp [keyed_sortChanges, keyed_ahead, keyBefore_self, hlen]

end Order

section Steps

variable {ε α β : Type} {f : β → α → Except ε β} {l : List α} {x : α} {start final : β}

theorem foldlM_concat_ok_iff : (l ++ [x]).foldlM f start = .ok final ↔
    ∃ middle, l.foldlM f start = .ok middle ∧ f middle x = .ok final := by
  rw [List.foldlM_append]
  cases l.foldlM f start with
  | error e => simp [bind, Except.bind]
  | ok middle => cases h : f middle x <;> simp [bind, Except.bind, pure, Except.pure, h]

/-- A run of steps succeeds just when each step does. -/
theorem foldlM_ok_iff : (∃ final, l.foldlM f start = .ok final) ↔
    ∀ pre x post middle, l = pre ++ x :: post → pre.foldlM f start = .ok middle → ∃ next, f middle x = .ok next := by
  constructor
  · rintro ⟨final, h⟩ pre x post middle hl hpre
    cases hstep : f middle x with
    | ok next => exact ⟨next, rfl⟩
    | error e => cases h.symm.trans (foldlM_eq_error_iff.mpr ⟨pre, x, post, middle, hl, hpre, hstep⟩)
  · intro h
    cases hrun : l.foldlM f start with
    | ok final => exact ⟨final, rfl⟩
    | error e =>
      obtain ⟨pre, x, post, middle, hl, hpre, hstep⟩ := foldlM_eq_error_iff.mp hrun
      obtain ⟨next, hnext⟩ := h pre x post middle hl hpre
      cases hstep.symm.trans hnext

end Steps

section Crash

variable {content : Bytes} {changes front back : List Change} {r : Change}

theorem validate_ahead (hvalid : validate (front ++ r :: back) content.length = .ok ()) :
    validate (ahead front r back) content.length = .ok () :=
  validate_eq_ok_iff.mpr fun x hx => validate_eq_ok_iff.mp hvalid x (mem_of_mem_ahead hx)

/-- A crash ends a run at an end that wraps around and that the buffer does not reach. -/
theorem crash_iff : (∃ stop, applyChanges content changes = .error (.crash stop)) ↔
    (∀ c ∈ changes, c.misfit? content.length = none) ∧
      ∃ front c back buffer, changes = front ++ c :: back ∧ c.wraps ∧
        applyChanges content (ahead front c back) = .ok buffer ∧ buffer.length < c.stop := by
  by_cases hvalid : validate changes content.length = .ok ()
  · rw [applyChanges_of_valid hvalid]
    refine Iff.trans ⟨?_, ?_⟩ (and_iff_right (validate_eq_ok_iff.mp hvalid)).symm
    · rintro ⟨stop, h⟩
      obtain ⟨pre, c, post, buffer, hsort, hpre, hstep⟩ := foldlM_eq_error_iff.mp h
      obtain ⟨front, back, rfl, rfl⟩ := exists_split hsort
      rcases splice_error hstep with ⟨x, hx⟩ | ⟨hwraps, hlen, -⟩
      · cases hx
      · exact ⟨front, c, back, buffer, rfl, hwraps, (applyChanges_eq_ok_iff (validate_ahead hvalid)).mpr hpre, hlen⟩
    · rintro ⟨front, c, back, buffer, rfl, hwraps, hbuffer, hlen⟩
      have hpre := (applyChanges_eq_ok_iff (validate_ahead hvalid)).mp hbuffer
      exact ⟨c.stop64, foldlM_eq_error_iff.mpr
        ⟨_, c, _, buffer, sortChanges_split front c back, hpre, if_pos ⟨hwraps, hlen⟩⟩⟩
  · obtain ⟨e, he⟩ := applyChanges_of_invalid hvalid
    refine ⟨fun ⟨stop, h⟩ => ?_, fun h => absurd (validate_eq_ok_iff.mpr h.1) hvalid⟩
    cases he.symm.trans h

/-- Two lists of the same changes, in which those of one position and one mode stand in the same
order, come out alike: in one content, in one conflict, both as invalid, or in one crash. There is a crash just where
each change fits by itself, and those made ahead of one whose end wraps around are applied and leave less than that
end. -/
theorem applyChanges_rearranged {content : Bytes} {s t : List Change} (hperm : s.Perm t)
    (hequals : ∀ p m, (s.filter fun c => c.position = p ∧ c.mode = m) =
      t.filter fun c => c.position = p ∧ c.mode = m) :
    ((∃ next, applyChanges content s = .ok next ∧ applyChanges content t = .ok next) ∨
      (∃ e, applyChanges content s = .error (.conflict e) ∧ applyChanges content t = .error (.conflict e)) ∨
      (∃ e e', applyChanges content s = .error (.invalid e) ∧ applyChanges content t = .error (.invalid e')) ∨
      ∃ c ∈ s, c.wraps ∧ applyChanges content s = .error (.crash c.stop64) ∧
        applyChanges content t = .error (.crash c.stop64)) ∧
      ((∃ stop, applyChanges content s = .error (.crash stop)) ↔
        (∀ c ∈ s, c.misfit? content.length = none) ∧
          ∃ front c back buffer, s = front ++ c :: back ∧ c.wraps ∧
            applyChanges content (ahead front c back) = .ok buffer ∧ buffer.length < c.stop) := by
  have hvalid : validate s content.length = .ok () ↔ validate t content.length = .ok () := by
    rw [validate_eq_ok_iff, validate_eq_ok_iff]
    exact ⟨fun h c hc => h c (hperm.mem_iff.mpr hc), fun h c hc => h c (hperm.mem_iff.mp hc)⟩
  refine ⟨?_, crash_iff⟩
  by_cases hs : validate s content.length = .ok ()
  · have ht := hvalid.mp hs
    have hkeyed (k : Int × Int) : keyed k s = keyed k t := by
      rw [keyed_eq_filter (fun c hc => (validate_ok hs c hc).2.1) k,
        keyed_eq_filter (fun c hc => (validate_ok ht c hc).2.1) k]
      exact hequals k.1 _
    have hsame : applyChanges content t = applyChanges content s := by
      rw [applyChanges_of_valid hs, applyChanges_of_valid ht, sortChanges_congr hkeyed]
    rw [hsame]
    rcases ok_or_refused hs with ⟨next, h⟩ | ⟨e, h⟩ | ⟨c, hc, hwraps, h⟩
    · exact Or.inl ⟨next, h, h⟩
    · exact Or.inr (Or.inl ⟨e, h, h⟩)
    · exact Or.inr (Or.inr (Or.inr ⟨c, hc, hwraps, h, h⟩))
  · obtain ⟨e, he⟩ := applyChanges_of_invalid hs
    obtain ⟨e', he'⟩ := applyChanges_of_invalid fun ht => hs (hvalid.mpr ht)
    exact Or.inr (Or.inr (Or.inl ⟨e, e', he, he'⟩))

/-- An overlap, listed from the front of the content and from its back. -/
theorem applyChanges_rearranged_overlap :
    applyChanges "abcdef" [.replace 0 "abc" "w", .insert 1 "z", .insert 5 "x", .insert 5 "y"] =
        .error (.conflict ⟨[], .replace 0 "abc" "w", "azb"⟩) ∧
      applyChanges "abcdef" [.insert 5 "x", .insert 5 "y", .insert 1 "z", .replace 0 "abc" "w"] =
        .error (.conflict ⟨[], .replace 0 "abc" "w", "azb"⟩) := by
  have hconflict : applyChanges "abcdef" [.replace 0 "abc" "w", .insert 1 "z", .insert 5 "x", .insert 5 "y"] =
      .error (.conflict ⟨[], .replace 0 "abc" "w", "azb"⟩) :=
    applyChanges_of_sorted (by decide) (by decide)
  have hequals (p : Int) (m : Mode) :
      ([.replace 0 "abc" "w", .insert 1 "z", .insert 5 "x", .insert 5 "y"] : List Change).filter
          (fun c => c.position = p ∧ c.mode = m) =
        [.insert 5 "x", .insert 5 "y", .insert 1 "z", .replace 0 "abc" "w"].filter
          fun c => c.position = p ∧ c.mode = m := by
    by_cases h5 : (5 : Int) = p
    · subst h5
      cases m <;> rfl
    · by_cases h1 : (1 : Int) = p
      · subst h1
        cases m <;> rfl
      · by_cases h0 : (0 : Int) = p
        · subst h0
          cases m <;> rfl
        · simp [Change.insert, Change.replace, h5, h1, h0]
  rcases (@applyChanges_rearranged "abcdef" _ _ (by decide) hequals).1 with
    ⟨next, h, -⟩ | ⟨e, h, hlisted⟩ | ⟨e, e', h, -⟩ | ⟨c, -, -, h, -⟩
  · rw [hconflict] at h
    cases h
  · rw [hconflict] at h
    cases h
    exact ⟨hconflict, hlisted⟩
  · rw [hconflict] at h
    cases h
  · rw [hconflict] at h
    cases h

/-- A replacement at the last offset of 64 bits ends behind all offsets. It passes for one that fits, and crashes. -/
theorem rearranged_crash : ¬∀ (content : Bytes) (s t : List Change), s.Perm t →
    (∀ p m, (s.filter fun c => c.position = p ∧ c.mode = m) = t.filter fun c => c.position = p ∧ c.mode = m) →
      (∃ next, applyChanges content s = .ok next ∧ applyChanges content t = .ok next) ∨
        (∃ e, applyChanges content s = .error (.conflict e) ∧ applyChanges content t = .error (.conflict e)) ∨
        ∃ e e', applyChanges content s = .error (.invalid e) ∧ applyChanges content t = .error (.invalid e') := by
  intro hall
  have hcrash : applyChanges "xyz" [.delete 0x7fffffffffffffff "ab"] = .error (.crash (-0x7fffffffffffffff)) :=
    applyChanges_of_sorted (by decide) (by decide)
  rcases hall "xyz" [.delete 0x7fffffffffffffff "ab"] [.delete 0x7fffffffffffffff "ab"] (List.Perm.refl _) fun _ _ => rfl with
    ⟨next, h, -⟩ | ⟨e, h, -⟩ | ⟨e, e', h, -⟩ <;> cases hcrash.symm.trans h

end Crash

/-- With some changes made, a replacement finds the text that it removes. -/
def Change.Finds (r : Change) (content : Bytes) (edits : List Change) : Prop :=
  ∃ buffer, applyChanges content edits = .ok buffer ∧ buffer.slice r.position.toNat r.stop.toNat = r.remove

/-- With some changes and then `d` made, the text that `r` removes stands at its place again: what the content has up
to `d`, the text of `d` and what came to follow that. -/
def Change.Restores (d r : Change) (content : Bytes) (edits : List Change) : Prop :=
  ∃ buffer, applyChanges content edits = .ok buffer ∧
    (d.mode = .replace → buffer.slice d.position.toNat d.stop.toNat = d.remove) ∧
    content.slice r.position.toNat d.position.toNat ++
      (d.text ++ buffer.drop d.stop.toNat).take (r.stop.toNat - d.position.toNat) = r.remove

section Overlap

variable {content : Bytes} {changes front back : List Change} {r c : Change}

/-- Changes that fit are applied just when each replacement finds its text after those made ahead of it. -/
theorem applyChanges_ok_iff_finds (hvalid : validate changes content.length = .ok ()) :
    (∃ next, applyChanges content changes = .ok next) ↔
      ∀ front r back, changes = front ++ r :: back → r.mode = .replace → r.Finds content (ahead front r back) := by
  simp only [applyChanges_eq_ok_iff hvalid]
  rw [foldlM_ok_iff]
  constructor
  · rintro h front r back rfl hr
    rw [sortChanges_split, ← foldlM_ok_iff] at h
    obtain ⟨final, hrun⟩ := h
    rw [List.append_cons, List.foldlM_append] at hrun
    obtain ⟨next, hnext, -⟩ := exists_of_bind_eq_ok hrun
    obtain ⟨buffer, hbuffer, hsplice⟩ := foldlM_concat_ok_iff.mp hnext
    exact ⟨buffer, (applyChanges_eq_ok_iff (validate_ahead hvalid)).mpr hbuffer, (splice_eq_ok_iff.mp hsplice).1 hr⟩
  · intro h pre r post buffer hsplit hbuffer
    obtain ⟨front, back, rfl, rfl⟩ := exists_split hsplit
    refine ⟨_, splice_eq_ok_iff.mpr ⟨fun hr => ?_, rfl⟩⟩
    obtain ⟨buffer', hbuffer', hfound⟩ := h front r back rfl hr
    rw [applyChanges_eq_ok_iff (validate_ahead hvalid), hbuffer] at hbuffer'
    cases hbuffer'
    exact hfound

/-- The change made right ahead of a replacement decides whether it finds its text. -/
theorem finds_iff_restores (hvalid : validate (front ++ r :: back) content.length = .ok ())
    (hc : c ∈ ahead front r back) (hstop : c.position ≤ r.stop) :
    ∃ f d b, ahead front r back = f ++ d :: b ∧ r.position ≤ d.position ∧ d.position ≤ c.position ∧
      (r.Finds content (ahead front r back) ↔ d.Restores r content (ahead f d b)) := by
  have hperm := sortChanges_perm (ahead front r back)
  have hmem := hperm.mem_iff.mpr hc
  have hahead := validate_ahead hvalid
  obtain ⟨pre, d, hsort⟩ := (List.eq_nil_or_concat _).resolve_left (List.ne_nil_of_mem hmem)
  rw [List.concat_eq_append] at hsort
  obtain ⟨f, b, hsplit, rfl⟩ := exists_split hsort
  have hd : d ∈ ahead front r back := by
    rw [hsplit]
    exact List.mem_append_right _ List.mem_cons_self
  have hrd : r.position ≤ d.position := position_le_of_before (before_of_mem_ahead hd)
  have hdc : d.position ≤ c.position := by
    have hlast := List.pairwise_append.mp (hsort ▸ sortChanges_pairwise (ahead front r back))
    rw [hsort] at hmem
    rcases List.mem_append.mp hmem with h | h
    · exact position_le_of_before (hlast.2.2 c h d (List.mem_singleton_self d))
    · rw [List.mem_singleton.mp h]
  refine ⟨f, d, b, hsplit, hrd, hdc, ?_⟩
  have hdvalid : validate (ahead f d b) content.length = .ok () := validate_ahead (hsplit ▸ hahead)
  obtain ⟨hr0, -, -⟩ := validate_ok hvalid r (List.mem_append_right _ List.mem_cons_self)
  have happly {middle : Bytes} (hmiddle : applyChanges content (ahead f d b) = .ok middle)
      (hfound : d.mode = .replace → middle.slice d.position.toNat d.stop.toNat = d.remove) :
      applyChanges content (ahead front r back) =
        .ok (middle.take d.position.toNat ++ (d.text ++ middle.drop d.stop.toNat)) := by
    rw [applyChanges_of_valid hahead, hsort]
    exact foldlM_concat_ok_iff.mpr
      ⟨middle, (applyChanges_eq_ok_iff hdvalid).mp hmiddle, splice_eq_ok_iff.mpr ⟨hfound, rfl⟩⟩
  by_cases hdlen : d.position ≤ content.length
  swap
  · -- Nothing is applied where a change starts behind the content.
    have hnone {next : Bytes} (h : applyChanges content (ahead front r back) = .ok next) : False :=
      hdlen (position_le_of_ok hahead h hd)
    constructor
    · rintro ⟨buffer, hbuffer, -⟩
      exact (hnone hbuffer).elim
    · rintro ⟨middle, hmiddle, hfound, -⟩
      exact (hnone (happly hmiddle hfound)).elim
  -- What the last change leaves within the range of `r`, whatever stands behind it.
  have hslice {buffer : Bytes} (hbuffer : (sortChanges (ahead f d b)).foldlM splice content = .ok buffer) :
      Bytes.slice (buffer.take d.position.toNat ++ (d.text ++ buffer.drop d.stop.toNat)) r.position.toNat
          r.stop.toNat =
        content.slice r.position.toNat d.position.toNat ++
          (d.text ++ buffer.drop d.stop.toNat).take (r.stop.toNat - d.position.toNat) := by
    have htake : buffer.take d.position.toNat = content.take d.position.toNat := by
      refine foldlM_splice_take (fun x hx => ?_) (by omega) hbuffer
      have hle := position_le_of_before (before_of_mem_ahead ((sortChanges_perm _).mem_iff.mp hx))
      omega
    have hlen : (content.take d.position.toNat).length = d.position.toNat := List.length_take_of_le (by omega)
    rw [htake, Bytes.slice, Bytes.slice, List.take_append, hlen, List.take_take, min_eq_right (by omega),
      List.drop_append_of_le_length (by omega)]
  simp only [Change.Finds, Change.Restores, applyChanges_eq_ok_iff hahead, applyChanges_eq_ok_iff hdvalid, hsort,
    foldlM_concat_ok_iff, splice_eq_ok_iff]
  constructor
  · rintro ⟨buffer, ⟨middle, hmiddle, hfound, rfl⟩, hr⟩
    exact ⟨middle, hmiddle, hfound, hslice hmiddle ▸ hr⟩
  · rintro ⟨middle, hmiddle, hfound, hr⟩
    exact ⟨_, ⟨middle, hmiddle, hfound, rfl⟩, (hslice hmiddle).trans hr⟩

/-- An overlap is noticed by the text that a replacement finds. With a change that starts within the range of `r`,
which is made first, `r` finds its text just when the change made right ahead of it, in its range too, puts that text
in place again; otherwise the changes are refused. Changes that fit are applied just when each replacement finds its
text. -/
theorem applyChanges_overlap (hr : r.mode = .replace) (hc : c ∈ front ++ back) (hstart : r.position < c.position)
    (hstop : c.position < r.stop) :
    ((∃ e, applyChanges content (front ++ r :: back) = .error (.invalid e)) ↔
        ∃ x ∈ front ++ r :: back, x.misfit? content.length ≠ none) ∧
      ((∀ x ∈ front ++ r :: back, x.misfit? content.length = none) →
        c ∈ ahead front r back ∧
          (∃ f d b, ahead front r back = f ++ d :: b ∧ r.position ≤ d.position ∧ d.position ≤ c.position ∧
            (r.Finds content (ahead front r back) ↔ d.Restores r content (ahead f d b)) ∧
            (¬d.Restores r content (ahead f d b) → Refused content (front ++ r :: back))) ∧
          ((∃ next, applyChanges content (front ++ r :: back) = .ok next) ↔
            ∀ f x b, front ++ r :: back = f ++ x :: b → x.mode = .replace → x.Finds content (ahead f x b)) ∧
          (Refused content (front ++ r :: back) ↔
            ∃ f x b, front ++ r :: back = f ++ x :: b ∧ x.mode = .replace ∧ ¬x.Finds content (ahead f x b)) ∧
          ((∀ x ∈ front ++ r :: back, x.wraps = false) →
            (Refused content (front ++ r :: back) ↔
              ∃ e, applyChanges content (front ++ r :: back) = .error (.conflict e)))) := by
  have hahead := mem_ahead_of_lt hc hstart
  constructor
  · constructor
    · rintro ⟨e, he⟩
      by_contra hnone
      push Not at hnone
      rcases ok_or_refused (validate_eq_ok_iff.mpr hnone) with ⟨next, h⟩ | h
      · cases he.symm.trans h
      · exact h.ne_invalid e he
    · rintro ⟨x, hx, hmisfit⟩
      exact applyChanges_of_invalid fun hvalid => hmisfit (validate_eq_ok_iff.mp hvalid x hx)
  · intro hfit
    have hvalid := validate_eq_ok_iff.mpr hfit
    have happly := applyChanges_ok_iff_finds hvalid
    have hrefused {f b : List Change} {x : Change} (hsplit : front ++ r :: back = f ++ x :: b) (hx : x.mode = .replace)
        (hnot : ¬x.Finds content (ahead f x b)) : Refused content (front ++ r :: back) :=
      (ok_or_refused hvalid).resolve_left fun hok => hnot (happly.mp hok f x b hsplit hx)
    refine ⟨hahead, ?_, happly, ?_, fun hwraps => ⟨fun h => ?_, Or.inl⟩⟩
    · obtain ⟨f, d, b, hsplit, hrd, hdc, hfinds⟩ := finds_iff_restores hvalid hahead hstop.le
      exact ⟨f, d, b, hsplit, hrd, hdc, hfinds, fun hnot => hrefused rfl hr fun h => hnot (hfinds.mp h)⟩
    · constructor
      · intro h
        by_contra hnone
        push Not at hnone
        obtain ⟨next, hok⟩ := happly.mpr hnone
        exact h.ne_ok next hok
      · rintro ⟨f, x, b, hsplit, hx, hnot⟩
        exact hrefused hsplit hx hnot
    · rcases h with h | ⟨x, hx, hcrash, -⟩
      · exact h
      · rw [hwraps x hx] at hcrash
        cases hcrash

/-- An insertion into the text that is removed. -/
theorem applyChanges_overlap_insert :
    ∃ e, applyChanges "abcdef" ([] ++ .replace 0 "abc" "w" :: [.insert 1 "z"]) = .error (.conflict e) := by
  obtain ⟨-, -, -, hrefused, hconflict⟩ :=
    (@applyChanges_overlap "abcdef" [] [.insert 1 "z"] (.replace 0 "abc" "w") (.insert 1 "z") rfl (by simp) (by decide)
      (by decide)).2 (by decide)
  refine (hconflict (by decide)).mp (hrefused.mpr ⟨[], .replace 0 "abc" "w", [.insert 1 "z"], rfl, rfl, ?_⟩)
  rintro ⟨buffer, hbuffer, hfound⟩
  have hrun : applyChanges "abcdef" (ahead [] (.replace 0 "abc" "w") [.insert 1 "z"]) = .ok "azbcdef" :=
    applyChanges_of_sorted (by decide) (by decide)
  rw [hrun] at hbuffer
  cases hbuffer
  revert hfound
  decide

/-- Where a content repeats itself, a replacement may find what has moved up into its range. The last three bytes,
which no change covers, are lost. -/
theorem overlap_unnoticed : ¬∀ (content : Bytes) (front back : List Change) (r c : Change), r.mode = .replace →
    c ∈ front ++ back → r.position < c.position → c.position < r.stop →
      ∃ e, applyChanges content (front ++ r :: back) = .error e := by
  intro hall
  obtain ⟨e, he⟩ := hall "abcabcabc" [] [.delete 3 "abc"] (.replace 0 "abcabc" "X") (.delete 3 "abc") rfl (by simp)
    (by decide) (by decide)
  have hrun : applyChanges "abcabcabc" ([] ++ [.replace 0 "abcabc" "X", .delete 3 "abc"]) = .ok "X" :=
    applyChanges_of_sorted (by decide) (by decide)
  cases he.symm.trans hrun

end Overlap

end Codemod.Edit
