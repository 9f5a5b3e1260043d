import Codemod.Proofs.Markup.Source
import Mathlib.Logic.Function.Iterate

namespace Codemod.Markup

namespace Forest

/-- Add finished elements one after another. -/
def push (f : Forest) (es : List Element) : Forest := es.foldl addChild f

/-- The names of the open elements, innermost first. -/
def names (f : Forest) : List Bytes := f.pending.map (·.tag.name)

@[simp] theorem push_nil (f : Forest) : f.push [] = f := rfl

@[simp] theorem push_cons (f : Forest) (e : Element) (es : List Element) :
    f.push (e :: es) = (f.addChild e).push es := rfl

theorem push_append (f : Forest) (a b : List Element) : f.push (a ++ b) = (f.push a).push b := by
  simp [push]

theorem push_open (roots : List Element) (top : Pending) (rest : List Pending) (es : List Element) :
    push ⟨roots, top :: rest⟩ es = ⟨roots, ⟨top.tag, es.reverse ++ top.children⟩ :: rest⟩ := by
  induction es generalizing top with
  | nil => rfl
  | cons e es ih => rw [push_cons, addChild, ih]; simp

theorem push_empty (roots es : List Element) : push ⟨roots, []⟩ es = ⟨es.reverse ++ roots, []⟩ := by
  induction es generalizing roots with
  | nil => rfl
  | cons e es ih => rw [push_cons, addChild, ih]; simp

@[simp] theorem names_addChild (f : Forest) (e : Element) : (f.addChild e).names = f.names := by
  obtain ⟨roots, pending⟩ := f
  cases pending <;> simp [addChild, names]

@[simp] theorem names_push (f : Forest) (es : List Element) : (f.push es).names = f.names := by
  induction es generalizing f with
  | nil => rfl
  | cons e es ih => rw [push_cons, ih, names_addChild]

@[simp] theorem names_close (f : Forest) (endTag : Option Span) (stop : Nat) :
    (f.close endTag stop).names = f.names.tail := by
  obtain ⟨roots, pending⟩ := f
  cases pending with
  | nil => rfl
  | cons top rest => simp only [close, names_addChild]; simp [names]

theorem names_iterate_close (f : Forest) (stop n : Nat) :
    ((·.close none stop)^[n] f).names = f.names.drop n := by
  induction n with
  | zero => rfl
  | succ n ih => rw [Function.iterate_succ_apply', names_close, ih, List.tail_drop]

theorem foldl_close {α : Type} (l : List α) (f : Forest) (stop : Nat) :
    l.foldl (fun f _ => f.close none stop) f = (·.close none stop)^[l.length] f := by
  induction l generalizing f with
  | nil => rfl
  | cons a l ih => rw [List.foldl_cons, ih, List.length_cons, Function.iterate_succ_apply]

/-- An element is opened. -/
def opened (f : Forest) (tag : StartTag) : Forest := ⟨f.roots, ⟨tag, []⟩ :: f.pending⟩

@[simp] theorem names_opened (f : Forest) (tag : StartTag) : (f.opened tag).names = tag.name :: f.names := rfl

/-- An opened element ends with the elements read since as its children. -/
theorem close_push_opened (f : Forest) (tag : StartTag) (es : List Element) (endTag : Option Span)
    (stop : Nat) : ((f.opened tag).push es).close endTag stop = f.addChild (.node tag es endTag stop) := by
  rw [opened, push_open, close]
  simp

theorem start_eq (f : Forest) (tag : StartTag) :
    f.start tag =
      let g := if f.names.head?.any (closesImplicitly · tag.name) then f.close none tag.span.start else f
      if tag.selfClosing || isVoid tag.name then g.addChild (.node tag [] none tag.span.stop)
      else g.opened tag := by
  obtain ⟨roots, pending⟩ := f
  cases pending <;> simp [start, names, opened]

/-- A start tag closes what it enters next to, and then adds or opens an element. -/
theorem start_of_enters {f : Forest} {held base : List Bytes} (tag : StartTag)
    (hnames : f.names = held ++ base) (h : Source.Enters base.head? held tag.name) :
    f.start tag =
      let g := (·.close none tag.span.start)^[held.length] f
      if tag.selfClosing || isVoid tag.name then g.addChild (.node tag [] none tag.span.stop)
      else g.opened tag := by
  rw [start_eq, hnames]
  match held, h with
  | [], h =>
    have htop : base.head?.any (closesImplicitly · tag.name) = false := by
      cases hb : base.head? with
      | none => rfl
      | some m => exact h m (by rw [hb]; rfl)
    simp [htop]
  | [last], h =>
    have h : closesImplicitly last tag.name = true := h
    simp [h]

theorem map_takeWhile_names (f : Forest) (name : Bytes) :
    (f.pending.takeWhile (·.tag.name != name)).map (·.tag.name) = f.names.takeWhile (· != name) := by
  rw [names, List.takeWhile_map]
  rfl

/-- An end tag closes the open elements up to the one it names. -/
theorem finish_of_names {f : Forest} {held base : List Bytes} {name : Bytes} (endTag : Span)
    (hnames : f.names = held ++ name :: base) (hheld : ∀ m ∈ held, m ≠ name ∧ hasOptionalEnd m = true)
    (hvoid : isVoid name = false) :
    f.finish name endTag =
      .ok (((·.close none endTag.start)^[held.length] f).close (some endTag) endTag.stop) := by
  have hmap := map_takeWhile_names f name
  have htake : f.names.takeWhile (· != name) = held := by
    rw [hnames, List.takeWhile_append_of_pos (by simpa using fun m hm => (hheld m hm).1)]
    simp
  rw [htake] at hmap
  have hlen := congrArg List.length hmap
  have hall := congrArg List.length hnames
  simp only [names, List.length_map, List.length_append, List.length_cons] at hlen hall
  have hopt : (f.pending.takeWhile (·.tag.name != name)).reverse.find? (!hasOptionalEnd ·.tag.name) = none := by
    rw [List.find?_eq_none]
    intro x hx
    have hx' : x.tag.name ∈ held := by
      rw [← hmap]
      exact List.mem_map_of_mem (List.mem_reverse.mp hx)
    simp [(hheld _ hx').2]
  unfold finish
  rw [hvoid]
  simp only [Bool.false_eq_true, if_false, hopt, foldl_close, hlen]
  rw [if_neg (by omega)]

theorem foldlM_cons_ok {f g : Forest} {m : Mark} (h : f.mark m = .ok g) (ms : List Mark) :
    (m :: ms).foldlM mark f = ms.foldlM mark g := by
  rw [List.foldlM_cons, h]
  rfl

theorem foldlM_append_ok {f g : Forest} {ms : List Mark} (h : ms.foldlM mark f = .ok g) (ns : List Mark) :
    (ms ++ ns).foldlM mark f = ns.foldlM mark g := by
  rw [List.foldlM_append, h]
  rfl

end Forest

namespace Source

/-- Reading a tree adds its elements, as far as they are closed. -/
theorem foldlM_marks (s : Source) (p : Nat) (f : Forest) (held base : List Bytes)
    (hs : s.Nested base.head? held) (hf : f.names = held ++ base) :
    ∃ f', (marksOf p s.pieces).foldlM Forest.mark f = .ok f' ∧ f'.names = s.spine held ++ base ∧
      (·.close none (p + s.size))^[(s.spine held).length] f' =
        ((·.close none p)^[held.length] f).push (s.build p) := by
  induction s generalizing p f held base with
  | nil => exact ⟨f, rfl, hf, rfl⟩
  | gap g next ih =>
    obtain ⟨rfl, hs⟩ := hs
    obtain ⟨f', h1, h2, h3⟩ := ih (p + g.raw.length) f [] base hs hf
    refine ⟨f', ?_, h2, ?_⟩
    · cases g <;> exact h1
    · rw [size, ← Nat.add_assoc]
      exact h3
  | element tag selfClosing inner close next ih1 ih2 =>
    obtain ⟨henter, hbody, hnext⟩ := hs
    let g := (·.close none p)^[held.length] f
    have hg : g.names = base := by
      rw [Forest.names_iterate_close, hf, List.drop_left]
    have hstart : f.mark ⟨.start selfClosing, p, tag⟩ = .ok (
        if leaf tag selfClosing then
          g.addChild (.node (StartTag.scan tag p selfClosing) [] none (p + tag.length))
        else g.opened (StartTag.scan tag p selfClosing)) := by
      have h := Forest.start_of_enters (StartTag.scan tag p selfClosing) hf (by simpa using henter)
      simp only [Forest.mark, h, StartTag.scan_name, StartTag.scan_selfClosing, StartTag.scan_span]
      rfl
    rw [pieces, marksOf, Forest.foldlM_cons_ok hstart, marksOf_append, length_render]
    by_cases hleaf : leaf tag selfClosing = true
    · simp only [hleaf, if_true, Bool.true_or] at hbody hnext ⊢
      obtain ⟨rfl, rfl⟩ := hbody
      obtain ⟨f', h1, h2, h3⟩ := ih2 (p + tag.length)
        (g.addChild (.node (StartTag.scan tag p selfClosing) [] none (p + tag.length))) [] base hnext (by simpa using hg)
      refine ⟨f', h1, by simpa [spine, hleaf] using h2, ?_⟩
      simpa [spine, hleaf, size, build, Nat.add_assoc] using h3
    · simp only [hleaf, Bool.false_eq_true, if_false, Bool.false_or] at hbody hnext ⊢
      obtain ⟨hinner, hclose⟩ := hbody
      obtain ⟨f1, hf1, hn1, hc1⟩ := ih1 (p + tag.length) (g.opened (StartTag.scan tag p selfClosing)) []
        (startTagName tag :: base) hinner (by simp [hg])
      rw [Forest.foldlM_append_ok hf1]
      simp only [List.length_nil, Function.iterate_zero, id_eq] at hc1
      cases close with
      | some c =>
        obtain ⟨hname, hspine⟩ := hclose
        have hvoid : isVoid (startTagName tag) = false := by
          simp only [leaf, Bool.or_eq_true, not_or, Bool.not_eq_true] at hleaf
          exact hleaf.2
        let e : Element := .node (StartTag.scan tag p selfClosing) (inner.build (p + tag.length))
          (some ⟨p + tag.length + inner.size, p + tag.length + inner.size + c.length⟩)
          (p + tag.length + inner.size + c.length)
        have hstop : f1.mark ⟨.stop, p + tag.length + inner.size, c⟩ = .ok (g.addChild e) := by
          simp only [Forest.mark, hname, Forest.finish_of_names _ hn1 hspine hvoid]
          rw [hc1, Forest.close_push_opened]
          rfl
        simp only [Option.toList_some, List.map_cons, List.map_nil, List.cons_append, List.nil_append, marksOf]
        rw [Forest.foldlM_cons_ok hstop]
        obtain ⟨f', h1, h2, h3⟩ := ih2 (p + tag.length + inner.size + c.length) (g.addChild e) [] base hnext
          (by simpa using hg)
        refine ⟨f', h1, by simpa [spine, hleaf] using h2, ?_⟩
        simpa [spine, hleaf, size, build, Nat.add_assoc, g, e] using h3
      | none =>
        simp only [Option.toList_none, List.map_nil, List.nil_append]
        obtain ⟨f', h1, h2, h3⟩ := ih2 (p + tag.length + inner.size) f1
          (inner.spine [] ++ [startTagName tag]) base hnext (by simpa using hn1)
        refine ⟨f', h1, by simpa [spine, hleaf] using h2, ?_⟩
        rw [List.length_append, List.length_singleton, Function.iterate_succ_apply', hc1,
          Forest.close_push_opened] at h3
        simpa [spine, hleaf, size, build, Nat.add_assoc] using h3

/-- A tree that is read back: its pieces are, and its elements end where they should. -/
structure WellFormed (s : Source) : Prop where
  reads : Reads none s.pieces
  nested : s.Nested none []
  optional : ∀ m ∈ s.spine [], hasOptionalEnd m = true

/-- The content of a well-formed tree has its elements. -/
theorem WellFormed.parse_render {s : Source} (h : s.WellFormed) (path : Bytes) :
    Document.parse path (render s.pieces) = .ok ⟨path, render s.pieces, s.build 0⟩ := by
  obtain ⟨f', hfold, hnames, hclose⟩ := foldlM_marks s 0 .empty [] [] h.nested rfl
  have hopt : f'.pending.reverse.find? (!hasOptionalEnd ·.tag.name) = none := by
    rw [List.find?_eq_none]
    intro x hx
    have hx' : x.tag.name ∈ s.spine [] := by
      rw [← List.append_nil (s.spine []), ← hnames]
      exact List.mem_map_of_mem (List.mem_reverse.mp hx)
    simp [h.optional _ hx']
  have hlen : f'.pending.length = (s.spine []).length := by
    have := congrArg List.length hnames
    simpa [Forest.names] using this
  have hcomplete : f'.complete (render s.pieces).length = .ok (s.build 0) := by
    simp only [Forest.complete, hopt, Forest.foldl_close, hlen, length_render]
    rw [Nat.zero_add] at hclose
    rw [hclose]
    simp [Forest.empty, Forest.push_empty]
  have htokens : (tokens (render s.pieces)).foldlM Forest.add Forest.empty = .ok f' := by
    rw [foldlM_add]
    change (marks none ⟨0, render s.pieces⟩).foldlM Forest.mark Forest.empty = .ok f'
    rw [h.reads.marks_render]
    exact hfold
  have hread : ((tokens (render s.pieces)).foldlM Forest.add Forest.empty >>=
      (Forest.complete · (render s.pieces).length)) = .ok (s.build 0) := by
    rw [htokens]
    exact hcomplete
  simp only [Document.parse, hread]

end Source

end Codemod.Markup
