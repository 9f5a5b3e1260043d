import Codemod.Proofs.Edit.Merge

namespace Codemod.Edit

/-- The change fits a content and, where it replaces, finds the text that it removes. -/
structure Change.InPlace (c : Change) (content : Bytes) : Prop where
  start : 0 ≤ c.position
  mode : c.mode = .insert ∨ c.mode = .replace
  stop : c.stop ≤ content.length
  found : c.mode = .replace → content.slice c.position.toNat c.stop.toNat = c.remove

theorem Change.position_le_stop (c : Change) : c.position ≤ c.stop := by
  unfold Change.stop
  split <;> omega

theorem validate_of_inPlace {changes : List Change} {content : Bytes} (h : ∀ c ∈ changes, c.InPlace content) :
    validate changes content.length = .ok () :=
  validate_eq_ok_iff.mpr fun c hc =>
    have hc := h c hc
    Change.misfit?_eq_none_iff.mpr ⟨hc.start, hc.mode, c.stop64_le.trans hc.stop⟩

theorem splice_take {buffer next : Bytes} {c : Change} (h : splice buffer c = .ok next) {n : Nat}
    (hn : n ≤ c.position.toNat) (hlen : n ≤ buffer.length) : next.take n = buffer.take n := by
  obtain ⟨-, rfl⟩ := splice_eq_ok_iff.mp h
  have hlen' : n ≤ (buffer.take c.position.toNat).length := by
    rw [List.length_take]
    omega
  rw [List.take_append_of_le_length hlen', List.take_take, min_eq_left hn]

/-- Changes that go from the back to the front find the text before them as it was. -/
theorem foldlM_splice_ok_iff (content : Bytes) {l : List Change}
    (hfit : ∀ c ∈ l, c.stop64 ≤ content.length) (hapart : l.Pairwise fun c d => d.stop ≤ c.position)
    {buffer : Bytes} (hbuffer : ∀ c ∈ l, buffer.take c.stop.toNat = content.take c.stop.toNat) :
    (∃ next, l.foldlM splice buffer = .ok next) ↔
      ∀ c ∈ l, c.mode = .replace → content.slice c.position.toNat c.stop.toNat = c.remove := by
  induction l generalizing buffer with
  | nil => exact ⟨fun _ c hc => absurd hc List.not_mem_nil, fun _ => ⟨buffer, rfl⟩⟩
  | cons c l ih =>
    obtain ⟨hbefore, hapart'⟩ := List.pairwise_cons.mp hapart
    have hslice : buffer.slice c.position.toNat c.stop.toNat = content.slice c.position.toNat c.stop.toNat := by
      unfold Bytes.slice
      rw [hbuffer c (List.mem_cons_self ..)]
    have hrest {next : Bytes} (h : splice buffer c = .ok next) :
        (∃ final, l.foldlM splice next = .ok final) ↔
          ∀ d ∈ l, d.mode = .replace → content.slice d.position.toNat d.stop.toNat = d.remove := by
      refine ih (fun d hd => hfit d (List.mem_cons_of_mem c hd)) hapart' fun d hd => ?_
      have hlen := congrArg List.length (hbuffer c (List.mem_cons_self ..))
      have hstop : c.stop ≤ content.length :=
        Change.stop_le_of_found (hfit c (List.mem_cons_self ..)) fun hm => hslice ▸ (splice_eq_ok_iff.mp h).1 hm
      have hle := hbefore d hd
      have hpos := c.position_le_stop
      rw [List.length_take, List.length_take] at hlen
      rw [splice_take h (by omega) (by omega)]
      exact hbuffer d (List.mem_cons_of_mem c hd)
    rw [List.forall_mem_cons, ← hslice]
    constructor
    · rintro ⟨final, hfold⟩
      rw [List.foldlM_cons] at hfold
      cases hstep : splice buffer c with
      | error e =>
        rw [hstep] at hfold
        cases hfold
      | ok next =>
        rw [hstep] at hfold
        exact ⟨(splice_eq_ok_iff.mp hstep).1, (hrest hstep).mp ⟨final, hfold⟩⟩
    · rintro ⟨hfound, hothers⟩
      have hstep := splice_eq_ok_iff.mpr ⟨hfound, rfl⟩
      rw [List.foldlM_cons, hstep]
      exact (hrest hstep).mpr hothers

/-- Changes that all fit are applied in their order. -/
theorem applyChanges_of_valid {content : Bytes} {changes : List Change} (h : validate changes content.length = .ok ()) :
    applyChanges content changes = (sortChanges changes).foldlM splice content := by
  unfold applyChanges
  rw [h]
  rfl

theorem applyChanges_of_invalid {content : Bytes} {changes : List Change}
    (h : ¬validate changes content.length = .ok ()) :
    ∃ e, applyChanges content changes = .error (.invalid e) := by
  unfold applyChanges
  cases hv : validate changes content.length with
  | ok u => exact absurd hv h
  | error e => exact ⟨e, rfl⟩

theorem sortChanges_perm (changes : List Change) : (sortChanges changes).Perm changes :=
  (List.mergeSort_perm ..).trans (List.reverse_perm changes)

theorem splice_error {buffer : Bytes} {c : Change} {e : ApplyError} (h : splice buffer c = .error e) :
    (∃ x, e = .conflict x) ∨ c.wraps = true ∧ buffer.length < c.stop ∧ e = .crash c.stop64 := by
  unfold splice at h
  dsimp only at h
  split_ifs at h with hcross hmissed
  · exact Or.inr ⟨hcross.1, hcross.2, (Except.error.inj h).symm⟩
  · exact Or.inl ⟨_, (Except.error.inj h).symm⟩

theorem exists_of_bind_eq_ok {ε α β : Type} {x : Except ε α} {f : α → Except ε β} {b : β} (h : x >>= f = .ok b) :
    ∃ a, x = .ok a ∧ f a = .ok b := by
  cases x with
  | error e => cases h
  | ok a => exact ⟨a, rfl, h⟩

/-- A run of steps fails at the first step that does. -/
theorem foldlM_eq_error_iff {ε α β : Type} {f : β → α → Except ε β} {l : List α} {start : β} {e : ε} :
    l.foldlM f start = .error e ↔
      ∃ pre x post middle, l = pre ++ x :: post ∧ pre.foldlM f start = .ok middle ∧ f middle x = .error e := by
  induction l generalizing start with
  | nil => simp [pure, Except.pure]
  | cons y l ih =>
    rw [List.foldlM_cons]
    constructor
    · intro h
      cases hstep : f start y with
      | error e' =>
        rw [hstep] at h
        exact ⟨[], y, l, start, rfl, rfl, hstep.trans h⟩
      | ok next =>
        rw [hstep] at h
        obtain ⟨pre, x, post, middle, rfl, hpre, hx⟩ := ih.mp h
        refine ⟨y :: pre, x, post, middle, rfl, ?_, hx⟩
        rw [List.foldlM_cons, hstep]
        exact hpre
    · rintro ⟨pre, x, post, middle, hl, hpre, hx⟩
      cases pre with
      | nil =>
        obtain ⟨rfl, -⟩ := List.cons.inj hl
        obtain rfl : start = middle := Except.ok.inj hpre
        rw [hx]
        rfl
      | cons z pre =>
        obtain ⟨rfl, rfl⟩ := List.cons.inj hl
        rw [List.foldlM_cons] at hpre
        obtain ⟨next, hnext, hrest⟩ := exists_of_bind_eq_ok hpre
        rw [hnext]
        exact ih.mpr ⟨pre, x, post, middle, rfl, hrest, hx⟩

/-- Only at an end that wraps around is there a crash. -/
theorem wraps_of_crash {content : Bytes} {changes : List Change} {stop : Int}
    (h : applyChanges content changes = .error (.crash stop)) : ∃ c ∈ changes, c.wraps = true := by
  by_cases hvalid : validate changes content.length = .ok ()
  · rw [applyChanges_of_valid hvalid] at h
    obtain ⟨pre, c, post, buffer, hsort, -, hstep⟩ := foldlM_eq_error_iff.mp h
    have hc : c ∈ sortChanges changes := by simp [hsort]
    rcases splice_error hstep with ⟨x, hx⟩ | ⟨hwraps, -⟩
    · cases hx
    · exact ⟨c, (sortChanges_perm changes).mem_iff.mp hc, hwraps⟩
  · obtain ⟨e, he⟩ := applyChanges_of_invalid hvalid
    cases h.symm.trans he

/-- In the order of application every change ends before the ones applied earlier. -/
theorem Separate.sorted_apart {content : Bytes} {changes : List Change} (sep : Separate content changes)
    (hmode : ∀ c ∈ changes, c.mode = .insert ∨ c.mode = .replace) :
    (sortChanges changes).Pairwise fun c d => d.stop ≤ c.position := by
  have hperm := sortChanges_perm changes
  have hdistinct : changes.Pairwise fun c d => c.mode = .replace → d.mode = .replace → c.position ≠ d.position := by
    simpa [List.pairwise_filter] using sep.distinct
  have hsorted := (sortChanges_pairwise changes).and
    (hperm.symm.pairwise hdistinct fun {c d} h hd hc => (h hc hd).symm)
  refine hsorted.imp_of_mem ?_
  rintro c d hc hd ⟨hbefore, hne⟩
  have hc' := hperm.mem_iff.mp hc
  have hd' := hperm.mem_iff.mp hd
  simp only [Change.before, Bool.or_eq_true, Bool.and_eq_true, decide_eq_true_eq, beq_iff_eq] at hbefore
  rcases hmode d hd' with hdm | hdm
  · have hstop : d.stop = d.position := by simp [Change.stop, hdm]
    omega
  · rcases hmode c hc' with hcm | hcm
    · have hout := sep.outside d hd' c hc' hdm hcm
      have hcode : c.mode.code = 0 ∧ d.mode.code = 1 := by simp [hcm, hdm, Mode.code]
      omega
    · have hpos := hne hcm hdm
      have hap := sep.apart d hd' c hc' hdm hcm
      omega

/-- Changes made for one content apply to another just when all of them are in place there. -/
theorem Separate.applyChanges_ok_iff {content other : Bytes} {changes : List Change} (sep : Separate content changes) :
    (∃ next, applyChanges other changes = .ok next) ↔ ∀ c ∈ changes, c.InPlace other := by
  have hperm := sortChanges_perm changes
  by_cases hvalid : validate changes other.length = .ok ()
  · have hfit := validate_ok hvalid
    have hfold := foldlM_splice_ok_iff other (fun c hc => (hfit c (hperm.mem_iff.mp hc)).2.2)
      (sep.sorted_apart fun c hc => (hfit c hc).2.1) fun c _ => rfl
    rw [applyChanges_of_valid hvalid, hfold]
    constructor
    · intro h c hc
      obtain ⟨hstart, hmode, hstop⟩ := hfit c hc
      have hfound := h c (hperm.mem_iff.mpr hc)
      exact ⟨hstart, hmode, Change.stop_le_of_found hstop hfound, hfound⟩
    · intro h c hc
      exact (h c (hperm.mem_iff.mp hc)).found
  · constructor
    · rintro ⟨next, h⟩
      obtain ⟨e, he⟩ := applyChanges_of_invalid hvalid
      cases h.symm.trans he
    · intro h
      exact absurd (validate_of_inPlace h) hvalid

/-- No end in a content that fits into memory wraps around. -/
theorem Separate.wraps_eq_false {content : Bytes} {changes : List Change} (sep : Separate content changes)
    (hlen : content.length < 0x8000000000000000) : ∀ c ∈ changes, c.wraps = false := by
  intro c hc
  by_contra hwraps
  rw [Bool.not_eq_false] at hwraps
  have hstop := (Change.wraps_iff.mp hwraps).2
  exact Change.not_crossing_of_found (sep.found c hc) ⟨hwraps, by omega⟩

end Codemod.Edit
