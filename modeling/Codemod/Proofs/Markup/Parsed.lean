import Codemod.Proofs.Markup.Rendered

namespace Codemod.Markup

open Source

/-- The open elements of a template, innermost first: what stands before each in its parent, and
its start tag. -/
abbrev Stack := List (Source × Bytes)

namespace Stack

def parent (st : Stack) : Option Bytes := st.head?.map fun x => startTagName x.2

/-- All that has been read, when `cur` is what the innermost open element holds so far. -/
def pieces : Stack → Source → List Piece
  | [], cur => cur.pieces
  | (before, tag) :: st, cur => pieces st before ++ .start tag false :: cur.pieces

/-- The offset behind what has been read. -/
def stop : Stack → Source → Nat
  | [], cur => cur.size
  | (before, tag) :: st, cur => stop st before + tag.length + cur.size

def forest : Stack → Source → Forest
  | [], cur => Forest.empty.push (cur.build 0)
  | (before, tag) :: st, cur =>
    ((forest st before).opened (StartTag.scan tag (stop st before) false)).push
      (cur.build (stop st before + tag.length))

/-- The elements read so far are nested. -/
def Nested : Stack → Source → Prop
  | [], cur => cur.Nested none []
  | (before, tag) :: st, cur =>
    Nested st before ∧ Enters (parent st) (before.spine []) (startTagName tag) ∧
      leaf tag false = false ∧ cur.Nested (some (startTagName tag)) []

theorem names_forest (st : Stack) (cur : Source) :
    (forest st cur).names = st.map fun x => startTagName x.2 := by
  induction st generalizing cur with
  | nil => simp [forest, Forest.names, Forest.empty, Forest.push_empty]
  | cons x st ih => simp [forest, ih]

theorem nested_append {st : Stack} {cur more : Source} (h : Nested st cur)
    (hmore : more.Nested (parent st) (cur.spine [])) : Nested st (cur.append more) := by
  cases st with
  | nil => exact (Source.nested_append cur more none []).mpr ⟨h, hmore⟩
  | cons x st => exact ⟨h.1, h.2.1, h.2.2.1, (Source.nested_append cur more _ []).mpr ⟨h.2.2.2, hmore⟩⟩

theorem pieces_append (st : Stack) (cur more : Source) :
    pieces st (cur.append more) = pieces st cur ++ more.pieces := by
  cases st <;> simp [pieces, Source.pieces_append]

theorem stop_append (st : Stack) (cur more : Source) :
    stop st (cur.append more) = stop st cur + more.size := by
  cases st <;> simp [stop, Source.size_append, Nat.add_assoc]

theorem forest_append (st : Stack) (cur more : Source) :
    forest st (cur.append more) = (forest st cur).push (more.build (stop st cur)) := by
  cases st <;> simp [forest, stop, Source.build_append, Forest.push_append]

/-- The innermost open element ends here, with an end tag or without. -/
theorem forest_close (st : Stack) (before cur : Source) (tag : Bytes) (close : Option Bytes) :
    forest st (before.append (.element tag false cur close .nil)) =
      (forest ((before, tag) :: st) cur).close
        (close.map fun c => ⟨stop ((before, tag) :: st) cur, stop ((before, tag) :: st) cur + c.length⟩)
        (stop ((before, tag) :: st) cur + (close.getD []).length) := by
  rw [forest_append, forest, Forest.close_push_opened]
  rfl

theorem nested_omitted {st : Stack} {before cur : Source} {tag : Bytes} (h : Nested ((before, tag) :: st) cur)
    (hopt : hasOptionalEnd (startTagName tag) = true) :
    Nested st (before.append (.element tag false cur none .nil)) := by
  obtain ⟨hbefore, henter, hleaf, hcur⟩ := h
  refine nested_append hbefore ⟨henter, ?_, trivial⟩
  rw [hleaf]
  exact ⟨hcur, hopt⟩

theorem spine_omitted {before cur : Source} {tag : Bytes} (hleaf : leaf tag false = false) :
    (before.append (.element tag false cur none .nil)).spine [] = cur.spine [] ++ [startTagName tag] := by
  simp [spine_append, spine, hleaf]

theorem pieces_omitted (st : Stack) (before cur : Source) (tag : Bytes) :
    pieces st (before.append (.element tag false cur none .nil)) = pieces ((before, tag) :: st) cur := by
  simp [pieces_append, pieces, Source.pieces]

theorem stop_omitted (st : Stack) (before cur : Source) (tag : Bytes) :
    stop st (before.append (.element tag false cur none .nil)) = stop ((before, tag) :: st) cur := by
  simp [stop_append, stop, size, Nat.add_assoc]

theorem stop_eq (st : Stack) (cur : Source) : stop st cur = (render (pieces st cur)).length := by
  induction st generalizing cur with
  | nil => simp [stop, pieces, length_render]
  | cons x st ih => simp [stop, pieces, length_render, ih, Piece.raw, Nat.add_assoc]

theorem hasOptionalEnd_of_closesImplicitly {name next : Bytes} (h : closesImplicitly name next = true) :
    hasOptionalEnd name = true := by
  unfold closesImplicitly at h
  unfold hasOptionalEnd
  cases hl : optionalEnds.lookup name with
  | none => simp [hl] at h
  | some ends => rfl

/-- A start tag may end the innermost open element; then it enters. -/
theorem enter {st : Stack} {cur : Source} (h : Nested st cur) (hopen : cur.spine [] = []) (name : Bytes) :
    ∃ st' cur', Nested st' cur' ∧ Enters (parent st') (cur'.spine []) name ∧
      pieces st' cur' = pieces st cur ∧
      forest st' cur' = if (forest st cur).names.head?.any (closesImplicitly · name) then
        (forest st cur).close none (stop st cur) else forest st cur := by
  rw [names_forest]
  by_cases hcloses : (st.map fun x => startTagName x.2).head?.any (closesImplicitly · name) = true
  · rw [if_pos hcloses]
    cases st with
    | nil => simp at hcloses
    | cons x st =>
      obtain ⟨before, tag⟩ := x
      have hname : closesImplicitly (startTagName tag) name = true := by simpa using hcloses
      refine ⟨st, before.append (.element tag false cur none .nil),
        nested_omitted h (hasOptionalEnd_of_closesImplicitly hname), ?_, pieces_omitted st before cur tag,
        forest_close st before cur tag none⟩
      rw [spine_omitted h.2.2.1, hopen]
      exact hname
  · rw [if_neg hcloses]
    refine ⟨st, cur, h, ?_, rfl, rfl⟩
    rw [hopen]
    intro m hm
    rw [List.head?_map] at hcloses
    have hm' : Option.map (fun x => startTagName x.2) st.head? = some m := hm
    rw [hm'] at hcloses
    simpa using hcloses

/-- A start tag adds an element without content, or opens one. -/
theorem step_start {st : Stack} {cur : Source} (h : Nested st cur) (hopen : cur.spine [] = [])
    (tag : Bytes) (selfClosing : Bool) :
    ∃ st' cur', Nested st' cur' ∧ cur'.spine [] = [] ∧
      pieces st' cur' = pieces st cur ++ [.start tag selfClosing] ∧
      forest st' cur' = (forest st cur).start (StartTag.scan tag (stop st cur) selfClosing) := by
  obtain ⟨st1, cur1, h1, henter, hpieces, hforest⟩ := enter h hopen (startTagName tag)
  have hstop : stop st1 cur1 = stop st cur := by rw [stop_eq, stop_eq, hpieces]
  rw [Forest.start_eq]
  simp only [StartTag.scan_name, StartTag.scan_span, StartTag.scan_selfClosing]
  rw [← hforest, ← hstop]
  by_cases hleaf : leaf tag selfClosing = true
  · refine ⟨st1, cur1.append (.element tag selfClosing .nil none .nil), ?_, ?_, ?_, ?_⟩
    · refine nested_append h1 ⟨henter, ?_, trivial⟩
      rw [hleaf]
      exact ⟨rfl, rfl⟩
    · simp [spine_append, spine, hleaf]
    · simp [pieces_append, Source.pieces, hpieces]
    · rw [forest_append]
      rw [leaf] at hleaf
      rw [if_pos hleaf]
      rfl
  · have hfalse : selfClosing = false := by
      cases selfClosing
      · rfl
      · simp [leaf] at hleaf
    subst hfalse
    refine ⟨(cur1, tag) :: st1, .nil, ⟨h1, henter, by simpa using hleaf, trivial⟩, rfl, ?_, ?_⟩
    · simp [pieces, Source.pieces, hpieces]
    · rw [leaf] at hleaf
      rw [if_neg hleaf]
      rfl

/-- An end tag ends the innermost element of its name; open elements inside it may do without
an end tag of their own. -/
theorem step_stop {st : Stack} {cur : Source} {name tag : Bytes} (htag : endTagName tag = name)
    (h : Nested st cur) (hspine : ∀ m ∈ cur.spine [], m ≠ name ∧ hasOptionalEnd m = true)
    (hfound : name ∈ st.map fun x => startTagName x.2)
    (hopt : ∀ m ∈ (st.map fun x => startTagName x.2).takeWhile (· != name), hasOptionalEnd m = true) :
    ∃ st' cur', Nested st' cur' ∧ cur'.spine [] = [] ∧ pieces st' cur' = pieces st cur ++ [.stop tag] ∧
      forest st' cur' = ((·.close none (stop st cur))^[
        ((st.map fun x => startTagName x.2).takeWhile (· != name)).length] (forest st cur)).close
          (some ⟨stop st cur, stop st cur + tag.length⟩) (stop st cur + tag.length) := by
  induction st generalizing cur with
  | nil => simp at hfound
  | cons x st ih =>
    obtain ⟨before, outer⟩ := x
    by_cases hname : startTagName outer = name
    · have htake : ((startTagName outer :: st.map fun x => startTagName x.2).takeWhile (· != name)) = [] := by
        simp [hname]
      rw [List.map_cons, htake]
      refine ⟨st, before.append (.element outer false cur (some tag) .nil), ?_, ?_, ?_, ?_⟩
      · refine nested_append h.1 ⟨h.2.1, ?_, trivial⟩
        rw [h.2.2.1]
        exact ⟨h.2.2.2, htag.trans hname.symm, fun m hm => ⟨hname ▸ (hspine m hm).1, (hspine m hm).2⟩⟩
      · simp [spine_append, spine]
      · simp [pieces_append, pieces, Source.pieces]
      · rw [forest_close]
        rfl
    · have htake : ((startTagName outer :: st.map fun x => startTagName x.2).takeWhile (· != name)) =
          startTagName outer :: (st.map fun x => startTagName x.2).takeWhile (· != name) :=
        List.takeWhile_cons_of_pos (by simpa using hname)
      rw [List.map_cons, htake] at hopt
      have hopen := hopt _ (List.mem_cons_self ..)
      have hfound' : name ∈ st.map fun x => startTagName x.2 := by
        rw [List.map_cons, List.mem_cons] at hfound
        exact hfound.resolve_left fun h => hname h.symm
      obtain ⟨st', cur', h1, h2, h3, h4⟩ := ih (nested_omitted h hopen)
        (by rw [spine_omitted h.2.2.1]
            intro m hm
            rcases List.mem_append.mp hm with hm | hm
            · exact hspine m hm
            · rw [List.mem_singleton.mp hm]
              exact ⟨hname, hopen⟩)
        hfound' fun m hm => hopt m (List.mem_cons_of_mem _ hm)
      refine ⟨st', cur', h1, h2, by rw [h3, pieces_omitted], ?_⟩
      rw [h4, stop_omitted, forest_close, List.map_cons, htake, List.length_cons, Function.iterate_succ_apply]
      rfl

/-- What can be said of an end tag that the forest accepts. -/
theorem finish_ok {f f' : Forest} {name : Bytes} {endTag : Span} (hvoid : isVoid name = false)
    (h : f.finish name endTag = .ok f') :
    name ∈ f.names ∧ (∀ m ∈ f.names.takeWhile (· != name), hasOptionalEnd m = true) ∧
      f' = ((·.close none endTag.start)^[(f.names.takeWhile (· != name)).length] f).close
        (some endTag) endTag.stop := by
  have hmap := Forest.map_takeWhile_names f name
  have hlen := congrArg List.length hmap
  rw [List.length_map] at hlen
  unfold Forest.finish at h
  rw [hvoid] at h
  simp only [Bool.false_eq_true, if_false] at h
  split at h
  · cases h
  next hne =>
  split at h
  · cases h
  next hfind =>
  cases h
  refine ⟨?_, ?_, by rw [Forest.foldl_close, hlen]⟩
  · by_contra hmem
    refine hne ?_
    rw [hlen, List.takeWhile_eq_self_iff.mpr]
    · simp [Forest.names]
    · intro m hm
      simp only [bne_iff_ne, ne_eq]
      rintro rfl
      exact hmem hm
  · intro m hm
    rw [← hmap] at hm
    obtain ⟨x, hx, rfl⟩ := List.mem_map.mp hm
    have := List.find?_eq_none.mp hfind x (List.mem_reverse.mpr hx)
    simpa using this

theorem mapError_ok {ε ε' α : Type} {x : Except ε α} {g : ε → ε'} {a : α} (h : x.mapError g = .ok a) :
    x = .ok a := by
  cases x with
  | error e => cases h
  | ok b => cases h; rfl

/-- Reading on from a stack: the tree read so far takes in every piece. -/
theorem run {ps : List Piece} {st : Stack} {cur : Source} {f' : Forest} (h : Nested st cur)
    (hopen : cur.spine [] = []) (hvoid : ∀ tag, Piece.stop tag ∈ ps → isVoid (endTagName tag) = false)
    (hfold : (marksOf (stop st cur) ps).foldlM Forest.mark (forest st cur) = .ok f') :
    ∃ st' cur', Nested st' cur' ∧ cur'.spine [] = [] ∧ pieces st' cur' = pieces st cur ++ ps ∧
      forest st' cur' = f' := by
  induction ps generalizing st cur with
  | nil =>
    cases hfold
    exact ⟨st, cur, h, hopen, by simp, rfl⟩
  | cons x ps ih =>
    have hvoid' : ∀ tag, Piece.stop tag ∈ ps → isVoid (endTagName tag) = false :=
      fun tag htag => hvoid tag (List.mem_cons_of_mem x htag)
    -- One piece is read into `cur1` on `st1`; the rest follows by induction.
    suffices hstep : ∃ st1 cur1, Nested st1 cur1 ∧ cur1.spine [] = [] ∧
        pieces st1 cur1 = pieces st cur ++ [x] ∧
        (marksOf (stop st cur + x.raw.length) ps).foldlM Forest.mark (forest st1 cur1) = .ok f' by
      obtain ⟨st1, cur1, h1, h2, h3, h4⟩ := hstep
      have hstop : stop st1 cur1 = stop st cur + x.raw.length := by
        rw [stop_eq, h3, stop_eq, render_append, List.length_append]
        simp
      rw [← hstop] at h4
      obtain ⟨st', cur', h5, h6, h7, h8⟩ := ih h1 h2 hvoid' h4
      exact ⟨st', cur', h5, h6, by rw [h7, h3]; simp, h8⟩
    have hgap : ∀ g : Gap, forest st (cur.append (.gap g .nil)) = forest st cur := by
      intro g
      rw [forest_append]
      rfl
    have hnested : ∀ g : Gap, Nested st (cur.append (.gap g .nil)) :=
      fun g => nested_append h ⟨hopen, trivial⟩
    have hspine : ∀ g : Gap, (cur.append (.gap g .nil)).spine [] = [] := fun g => by simp [spine_append, spine]
    cases x with
    | text s =>
      refine ⟨st, cur.append (.gap (.text s) .nil), hnested _, hspine _, pieces_append _ _ _, ?_⟩
      rw [hgap]
      exact hfold
    | inert s =>
      refine ⟨st, cur.append (.gap (.inert s) .nil), hnested _, hspine _, pieces_append _ _ _, ?_⟩
      rw [hgap]
      exact hfold
    | start tag selfClosing =>
      obtain ⟨st1, cur1, h1, h2, h3, h4⟩ := step_start h hopen tag selfClosing
      refine ⟨st1, cur1, h1, h2, h3, ?_⟩
      rw [h4]
      exact hfold
    | stop tag =>
      rw [marksOf, List.foldlM_cons] at hfold
      cases hmark : (forest st cur).mark ⟨.stop, stop st cur, tag⟩ with
      | error e => rw [hmark] at hfold; cases hfold
      | ok f1 =>
        rw [hmark] at hfold
        obtain ⟨hmem, hopt, hf1⟩ := finish_ok (hvoid tag (List.mem_cons_self ..)) (mapError_ok hmark)
        rw [names_forest] at hmem hopt hf1
        obtain ⟨st1, cur1, h1, h2, h3, h4⟩ := step_stop rfl h (by simp [hopen]) hmem hopt
        refine ⟨st1, cur1, h1, h2, h3, ?_⟩
        rw [h4, ← hf1]
        exact hfold

/-- At the end every open element has to do without its end tag. -/
theorem closeAll {st : Stack} {cur : Source} (h : Nested st cur)
    (hspine : ∀ m ∈ cur.spine [], hasOptionalEnd m = true)
    (hopt : ∀ m ∈ st.map fun x => startTagName x.2, hasOptionalEnd m = true) :
    ∃ s : Source, s.Nested none [] ∧ (∀ m ∈ s.spine [], hasOptionalEnd m = true) ∧
      s.pieces = pieces st cur ∧
      Forest.empty.push (s.build 0) = (·.close none (stop st cur))^[st.length] (forest st cur) := by
  induction st generalizing cur with
  | nil => exact ⟨cur, h, hspine, rfl, rfl⟩
  | cons x st ih =>
    obtain ⟨before, tag⟩ := x
    have hopen := hopt _ (List.mem_cons_self ..)
    obtain ⟨s, h1, h2, h3, h4⟩ := ih (nested_omitted h hopen)
      (by rw [spine_omitted h.2.2.1]
          intro m hm
          rcases List.mem_append.mp hm with hm | hm
          · exact hspine m hm
          · rw [List.mem_singleton.mp hm]
            exact hopen)
      fun m hm => hopt m (List.mem_cons_of_mem _ hm)
    refine ⟨s, h1, h2, by rw [h3, pieces_omitted], ?_⟩
    rw [h4, stop_omitted, forest_close, List.length_cons, Function.iterate_succ_apply]
    rfl

end Stack

/-- An unfinished tag is an error. -/
theorem finished_of_foldlM {ms : List Mark} {f f' : Forest} (h : ms.foldlM Forest.mark f = .ok f') :
    ∀ m ∈ ms, m.kind ≠ .unfinished := by
  induction ms generalizing f with
  | nil => simp
  | cons m ms ih =>
    rw [List.foldlM_cons] at h
    cases hm : f.mark m with
    | error e => rw [hm] at h; cases h
    | ok g =>
      rw [hm] at h
      intro x hx hkind
      rcases List.mem_cons.mp hx with rfl | hx
      · simp only [Forest.mark, hkind] at hm
        cases hm
      · exact ih h x hx hkind

theorem parse_ok {path content : Bytes} {d : Document} (h : Document.parse path content = .ok d) :
    ∃ f, (marks none ⟨0, content⟩).foldlM Forest.mark Forest.empty = .ok f ∧
      f.complete content.length = .ok d.roots ∧ d = ⟨path, content, d.roots⟩ := by
  unfold Document.parse at h
  split at h
  · next roots hroots =>
    cases h
    cases hfold : (tokens content).foldlM Forest.add Forest.empty with
    | error e => rw [hfold] at hroots; cases hroots
    | ok f =>
      rw [hfold] at hroots
      rw [foldlM_add] at hfold
      exact ⟨f, hfold, hroots, rfl⟩
  · cases h

theorem complete_ok {f : Forest} {stop : Nat} {roots : List Element} (h : f.complete stop = .ok roots) :
    (∀ m ∈ f.names, hasOptionalEnd m = true) ∧
      roots = ((·.close none stop)^[f.names.length] f).roots.reverse := by
  unfold Forest.complete at h
  split at h
  · cases h
  next hfind =>
  cases h
  refine ⟨?_, by rw [Forest.foldl_close, Forest.names, List.length_map]⟩
  intro m hm
  obtain ⟨x, hx, rfl⟩ := List.mem_map.mp hm
  have := List.find?_eq_none.mp hfind x (List.mem_reverse.mpr hx)
  simpa using this

/-- Every template that is accepted is a well-formed tree. -/
theorem exists_source {path content : Bytes} {d : Document} (h : Document.parse path content = .ok d) :
    ∃ s : Source, s.WellFormed ∧ render s.pieces = content ∧ d = ⟨path, content, s.build 0⟩ := by
  obtain ⟨f, hfold, hcomplete, hd⟩ := parse_ok h
  obtain ⟨ps, rfl, hreads⟩ := exists_reads (finished_of_foldlM hfold)
  rw [hreads.marks_render] at hfold
  have hrun : ∃ st cur, Stack.Nested st cur ∧ cur.spine [] = [] ∧
      Stack.pieces st cur = Stack.pieces [] .nil ++ ps ∧ Stack.forest st cur = f :=
    Stack.run trivial rfl (fun tag htag => (hreads.valid _ htag).2) hfold
  obtain ⟨st, cur, hnested, hspine, hpieces, rfl⟩ := hrun
  have hpieces : Stack.pieces st cur = ps := hpieces
  obtain ⟨hopt, hroots⟩ := complete_ok hcomplete
  rw [Stack.names_forest] at hopt hroots
  obtain ⟨s, h1, h2, h3, h4⟩ := Stack.closeAll hnested (by simp [hspine]) hopt
  refine ⟨s, ⟨by rw [h3, hpieces]; exact hreads, h1, h2⟩, by rw [h3, hpieces], ?_⟩
  rw [hd, hroots]
  rw [Stack.stop_eq, hpieces] at h4
  rw [List.length_map, ← h4]
  simp [Forest.empty, Forest.push_empty]

end Codemod.Markup
