import Codemod.Proofs.Markup.Piece
import Codemod.Markup.Query

namespace Codemod.Markup

/-- What stands between tags. -/
inductive Gap where
  | text (s : Bytes)
  | inert (s : Bytes)
  deriving DecidableEq, Repr

def Gap.raw : Gap → Bytes
  | text s | inert s => s

def Gap.piece : Gap → Piece
  | text s => .text s
  | inert s => .inert s

/-- A template as a tree that keeps every byte: what one element holds, from left to right. -/
inductive Source where
  | nil
  | gap (g : Gap) (next : Source)
  /-- An element with its start tag, its content and its end tag, if it has one. -/
  | element (tag : Bytes) (selfClosing : Bool) (inner : Source) (close : Option Bytes) (next : Source)

namespace Source

def pieces : Source → List Piece
  | nil => []
  | gap g next => g.piece :: next.pieces
  | element tag selfClosing inner close next =>
    .start tag selfClosing :: (inner.pieces ++ (close.toList.map Piece.stop ++ next.pieces))

/-- The number of bytes. -/
def size : Source → Nat
  | nil => 0
  | gap g next => g.raw.length + next.size
  | element tag _ inner close next => tag.length + (inner.size + ((close.getD []).length + next.size))

/-- The elements of a tree that begins at an offset. -/
def build (p : Nat) : Source → List Element
  | nil => []
  | gap g next => next.build (p + g.raw.length)
  | element tag selfClosing inner close next =>
    let stop := p + tag.length + inner.size
    .node (StartTag.scan tag p selfClosing) (inner.build (p + tag.length))
      (close.map fun c => ⟨stop, stop + c.length⟩) (stop + (close.getD []).length) ::
        next.build (stop + (close.getD []).length)

def append : Source → Source → Source
  | nil, b => b
  | gap g next, b => gap g (next.append b)
  | element tag selfClosing inner close next, b => element tag selfClosing inner close (next.append b)

/-- An element that has no content. -/
def leaf (tag : Bytes) (selfClosing : Bool) : Bool := selfClosing || isVoid (startTagName tag)

/-- The elements that are still open behind a tree, innermost first; `held` were open before it. -/
def spine (held : List Bytes) : Source → List Bytes
  | nil => held
  | gap _ next => next.spine []
  | element tag selfClosing inner close next =>
    next.spine (if leaf tag selfClosing || close.isSome then [] else inner.spine [] ++ [startTagName tag])

/-- A start tag inside `parent` opens an element next to the open ones: it closes the one that
is open, and only that. -/
def Enters (parent : Option Bytes) (held : List Bytes) (name : Bytes) : Prop :=
  match held with
  | [] => ∀ m ∈ parent, closesImplicitly m name = false
  | [last] => closesImplicitly last name = true
  | _ => False

/-- Every element has its end tag unless it may do without. -/
def Nested (parent : Option Bytes) (held : List Bytes) : Source → Prop
  | nil => True
  | gap _ next => held = [] ∧ next.Nested parent []
  | element tag selfClosing inner close next =>
    Enters parent held (startTagName tag) ∧
      (if leaf tag selfClosing then inner = nil ∧ close = none
        else inner.Nested (some (startTagName tag)) [] ∧
          match close with
          | some c => endTagName c = startTagName tag ∧
              ∀ m ∈ inner.spine [], m ≠ startTagName tag ∧ hasOptionalEnd m = true
          | none => hasOptionalEnd (startTagName tag) = true) ∧
      next.Nested parent
        (if leaf tag selfClosing || close.isSome then [] else inner.spine [] ++ [startTagName tag])

theorem render_piece (g : Gap) : g.piece.raw = g.raw := by cases g <;> rfl

theorem length_render (s : Source) : (render s.pieces).length = s.size := by
  induction s with
  | nil => rfl
  | gap g next ih => simp [pieces, size, render_piece, ih]
  | element tag selfClosing inner close next ih1 ih2 =>
    cases close <;> simp [pieces, size, Piece.raw, ih1, ih2]

theorem pieces_append (a b : Source) : (a.append b).pieces = a.pieces ++ b.pieces := by
  induction a with
  | nil => rfl
  | gap g next ih => simp [append, pieces, ih]
  | element tag selfClosing inner close next _ ih => simp [append, pieces, ih]

theorem size_append (a b : Source) : (a.append b).size = a.size + b.size := by
  rw [← length_render, pieces_append, render_append, List.length_append, length_render, length_render]

theorem build_append (a b : Source) (p : Nat) : (a.append b).build p = a.build p ++ b.build (p + a.size) := by
  induction a generalizing p with
  | nil => rfl
  | gap g next ih => simp [append, build, size, ih, Nat.add_assoc]
  | element tag selfClosing inner close next _ ih => simp [append, build, size, ih, Nat.add_assoc]

theorem spine_append (a b : Source) (held : List Bytes) :
    (a.append b).spine held = b.spine (a.spine held) := by
  induction a generalizing held with
  | nil => rfl
  | gap g next ih => simp [append, spine, ih]
  | element tag selfClosing inner close next _ ih => simp [append, spine, ih]

theorem nested_append (a b : Source) (parent : Option Bytes) (held : List Bytes) :
    (a.append b).Nested parent held ↔ a.Nested parent held ∧ b.Nested parent (a.spine held) := by
  induction a generalizing held with
  | nil => simp [append, Nested, spine]
  | gap g next ih => simp [append, Nested, spine, ih, and_assoc]
  | element tag selfClosing inner close next _ ih => simp [append, Nested, spine, ih, and_assoc]

end Source

@[simp] theorem StartTag.scan_name (tag : Bytes) (p : Nat) (selfClosing : Bool) :
    (StartTag.scan tag p selfClosing).name = startTagName tag := by
  have h : p + 1 + (startTagName tag).length - p = (startTagName tag).length + 1 := by omega
  simp only [StartTag.scan, Cursor.skip, Bytes.slice]
  change (tag.take (p + 1 + (startTagName tag).length - p)).drop 1 = startTagName tag
  rw [h, List.drop_take, Nat.add_sub_cancel]
  exact (List.prefix_iff_eq_take.mp (List.takeWhile_prefix _)).symm

@[simp] theorem StartTag.scan_span (tag : Bytes) (p : Nat) (selfClosing : Bool) :
    (StartTag.scan tag p selfClosing).span = ⟨p, p + tag.length⟩ := rfl

@[simp] theorem StartTag.scan_selfClosing (tag : Bytes) (p : Nat) (selfClosing : Bool) :
    (StartTag.scan tag p selfClosing).selfClosing = selfClosing := rfl

theorem slice_append {pre s post : Bytes} {start stop : Nat} (h1 : pre.length ≤ start)
    (h2 : stop ≤ pre.length + s.length) :
    Bytes.slice (pre ++ s ++ post) start stop = s.slice (start - pre.length) (stop - pre.length) := by
  rw [Bytes.slice, Bytes.slice, List.append_assoc, List.take_append, List.drop_append,
    List.take_append_of_le_length (by omega), List.drop_eq_nil_of_le (by rw [List.length_take]; omega),
    List.nil_append, List.length_take]
  by_cases h : pre.length ≤ stop
  · rw [Nat.min_eq_right h]
  · rw [Nat.min_eq_left (by omega), Nat.sub_eq_zero_of_le (by omega : stop ≤ pre.length)]
    simp

theorem slice_self (pre s post : Bytes) : Bytes.slice (pre ++ s ++ post) pre.length (pre.length + s.length) = s := by
  rw [slice_append (Nat.le_refl _) (Nat.le_refl _)]
  simp [Bytes.slice]

namespace Source

/-- The first element of a tree that begins at an offset. -/
def node (p : Nat) (tag : Bytes) (selfClosing : Bool) (inner : Source) (close : Option Bytes) : Element :=
  .node (StartTag.scan tag p selfClosing) (inner.build (p + tag.length))
    (close.map fun c => ⟨p + tag.length + inner.size, p + tag.length + inner.size + c.length⟩)
    (p + tag.length + inner.size + (close.getD []).length)

theorem build_element (p : Nat) (tag : Bytes) (selfClosing : Bool) (inner : Source) (close : Option Bytes)
    (next : Source) : (element tag selfClosing inner close next).build p =
      node p tag selfClosing inner close :: next.build (p + tag.length + inner.size + (close.getD []).length) :=
  rfl

theorem contentSpan_node {p : Nat} {tag : Bytes} {selfClosing : Bool} {inner : Source} {close : Option Bytes}
    (h : leaf tag selfClosing = true → inner = nil ∧ close = none) :
    (node p tag selfClosing inner close).contentSpan = ⟨p + tag.length, p + tag.length + inner.size⟩ := by
  cases close with
  | some c => rfl
  | none =>
    by_cases hleaf : leaf tag selfClosing = true
    · obtain ⟨rfl, -⟩ := h hleaf
      simp [node, Element.contentSpan, Element.endTag, Element.selfClosing, Element.tag, Element.name,
        Element.startTag, Element.stop, size]
    · rw [leaf] at hleaf
      simp [node, Element.contentSpan, Element.endTag, Element.selfClosing, Element.tag, Element.name,
        Element.startTag, Element.stop, hleaf]

/-- The places of an element, of what it holds and of what follows it. -/
theorem mem_placesIn_element {place : Place} {above : List Element} {p : Nat} {tag : Bytes}
    {selfClosing : Bool} {inner : Source} {close : Option Bytes} {next : Source} :
    place ∈ Element.placesIn above ((element tag selfClosing inner close next).build p) ↔
      place = ⟨node p tag selfClosing inner close, above⟩ ∨
      place ∈ Element.placesIn (node p tag selfClosing inner close :: above) (inner.build (p + tag.length)) ∨
      place ∈ Element.placesIn above
        (next.build (p + tag.length + inner.size + (close.getD []).length)) := by
  rw [build_element, Element.placesIn, node, Element.places]
  simp

theorem Nested.leaf {parent : Option Bytes} {held : List Bytes} {tag : Bytes} {selfClosing : Bool}
    {inner : Source} {close : Option Bytes} {next : Source}
    (h : (element tag selfClosing inner close next).Nested parent held) :
    leaf tag selfClosing = true → inner = nil ∧ close = none := by
  intro hleaf
  have := h.2.1
  rw [if_pos hleaf] at this
  exact this

theorem Nested.endTagName {parent : Option Bytes} {held : List Bytes} {tag : Bytes} {selfClosing : Bool}
    {inner : Source} {close : Option Bytes} {next : Source}
    (h : (element tag selfClosing inner close next).Nested parent held) :
    ∀ c ∈ close, endTagName c = startTagName tag := by
  rintro c rfl
  obtain ⟨-, hbody, -⟩ := h
  split at hbody
  · cases hbody.2
  · exact hbody.2.1

theorem Nested.inner {parent : Option Bytes} {held : List Bytes} {tag : Bytes} {selfClosing : Bool}
    {inner : Source} {close : Option Bytes} {next : Source}
    (h : (element tag selfClosing inner close next).Nested parent held) :
    inner.Nested (some (startTagName tag)) [] := by
  obtain ⟨-, hbody, -⟩ := h
  split at hbody
  · rw [hbody.1]
    trivial
  · exact hbody.1

theorem mem_placesIn {e : Element} {es : List Element} (above : List Element) (h : e ∈ es) :
    ⟨e, above⟩ ∈ Element.placesIn above es := by
  induction es with
  | nil => simp at h
  | cons x es ih =>
    rw [Element.placesIn, List.mem_append]
    rcases List.mem_cons.mp h with rfl | h
    · obtain ⟨tag, children, endTag, stop⟩ := e
      rw [Element.places]
      exact Or.inl (List.mem_cons_self ..)
    · exact Or.inr (ih h)

end Source

end Codemod.Markup
