import Codemod.Markup.Token

namespace Codemod.Markup

structure Attribute where
  /-- As written, with any binding brackets. -/
  name : Bytes
  /-- Without the surrounding quotes. -/
  value : Bytes
  quote : Option UInt8
  hasValue : Bool
  /-- The name and the value with its quotes. -/
  span : Span
  nameSpan : Span
  /-- Empty and after the name when there is no value. -/
  valueSpan : Span
  deriving DecidableEq, Repr

namespace Attribute

/-- Read one attribute of a start tag, with the cursor after it. The first byte always belongs
to the name. -/
def scan (c : Cursor) : Attribute × Cursor :=
  let after := Cursor.skip (!isKeyEnd ·) ⟨c.pos + 1, c.rest.drop 1⟩
  let text (start stop : Nat) : Bytes := c.rest.slice (start - c.pos) (stop - c.pos)
  let nameSpan : Span := ⟨c.pos, after.pos⟩
  let name := text c.pos after.pos
  let sign := after.skip isSpace
  match sign.rest with
  | x :: r =>
    if x == '=' then
      let first := Cursor.skip isSpace ⟨sign.pos + 1, r⟩
      match first.rest with
      | q :: r =>
        if isQuote q then
          let close := Cursor.skip (· != q) ⟨first.pos + 1, r⟩
          let stop : Cursor := match close.rest with
            | [] => close
            | _ :: r => ⟨close.pos + 1, r⟩
          (⟨name, text (first.pos + 1) close.pos, some q, true, ⟨c.pos, stop.pos⟩, nameSpan,
            ⟨first.pos + 1, close.pos⟩⟩, stop)
        else
          let close := first.skip (!isValueEnd ·)
          (⟨name, text first.pos close.pos, none, true, ⟨c.pos, close.pos⟩, nameSpan,
            ⟨first.pos, close.pos⟩⟩, close)
      | [] => (⟨name, [], none, true, ⟨c.pos, first.pos⟩, nameSpan, ⟨first.pos, first.pos⟩⟩, first)
    else (⟨name, [], none, false, nameSpan, nameSpan, ⟨after.pos, after.pos⟩⟩, after)
  | [] => (⟨name, [], none, false, nameSpan, nameSpan, ⟨after.pos, after.pos⟩⟩, after)

theorem scan_length_lt (c : Cursor) (h : c.rest ≠ []) :
    (scan c).2.rest.length < c.rest.length := by
  have h0 : (c.rest.drop 1).length < c.rest.length := by
    have := List.length_pos_iff.mpr h
    simp only [List.length_drop]; omega
  have h1 := Cursor.skip_length_le (!isKeyEnd ·) ⟨c.pos + 1, c.rest.drop 1⟩
  have h2 := Cursor.skip_length_le isSpace (Cursor.skip (!isKeyEnd ·) ⟨c.pos + 1, c.rest.drop 1⟩)
  unfold scan
  generalize Cursor.skip (!isKeyEnd ·) ⟨c.pos + 1, c.rest.drop 1⟩ = after at h1 h2 ⊢
  dsimp only at h1 h2 ⊢
  split
  · next x r hx =>
    rw [hx] at h2
    split
    · have h3 := Cursor.skip_length_le isSpace ⟨(after.skip isSpace).pos + 1, r⟩
      generalize Cursor.skip isSpace ⟨(after.skip isSpace).pos + 1, r⟩ = first at h3 ⊢
      simp only [List.length_cons] at h2 h3
      split
      · next q r' hq =>
        rw [hq, List.length_cons] at h3
        split
        · have h4 := Cursor.skip_length_le (· != q) ⟨first.pos + 1, r'⟩
          dsimp only at h4 ⊢
          split
          · omega
          · next y r'' hy => rw [hy, List.length_cons] at h4; dsimp only; omega
        · have h4 := Cursor.skip_length_le (!isValueEnd ·) first
          rw [hq, List.length_cons] at h4
          dsimp only
          omega
      · dsimp only; omega
    · dsimp only; omega
  · dsimp only; omega

/-- The attributes of a start tag from a cursor on. Slashes between attributes are ignored. -/
def scanAll (c : Cursor) : List Attribute :=
  let first := c.skip fun x => isSpace x || x == '/'
  match _h : first.rest with
  | [] => []
  | x :: _ =>
    if x == '>' then []
    else
      let read := scan first
      read.1 :: scanAll read.2
termination_by c.rest.length
decreasing_by
  have h1 := scan_length_lt (c.skip fun x => isSpace x || x == '/') (by rw [_h]; simp)
  exact Nat.lt_of_lt_of_le h1 (Cursor.skip_length_le _ c)

/-- A property binding: `[x]`, `[(x)]`, `bind-x` or `bindon-x`. -/
def bound (a : Attribute) : Bool :=
  (a.name.startsWith "[" && a.name.endsWith "]") ||
    a.name.startsWith "bind-" || a.name.startsWith "bindon-"

/-- The name without its first and last `n` bytes. -/
private def inner (n : Nat) (name : Bytes) : Bytes := name.slice n (name.length - n)

/-- The name without binding marks: `label`, `[label]` and `bind-label` are all `label`. -/
def logicalName (a : Attribute) : Bytes :=
  let n := a.name
  if n.startsWith "[(" && n.endsWith ")]" then inner 2 n
  else if n.startsWith "[" && n.endsWith "]" then inner 1 n
  else if n.startsWith "(" && n.endsWith ")" then inner 1 n
  else if n.startsWith "bindon-" then n.dropHead "bindon-"
  else if n.startsWith "bind-" then n.dropHead "bind-"
  else n.dropHead "on-"

/-- The value as template text: a bound value is written as an interpolation. -/
def interpolated (a : Attribute) : Bytes :=
  if a.bound then "\x7b\x7b" ++ a.value ++ "\x7d\x7d" else a.value

/-- The attribute with the white space in front of it. -/
def removalSpan (a : Attribute) (content : Bytes) : Span :=
  let before := (content.take a.span.start).reverse.takeWhile isSpace
  ⟨a.span.start - before.length, a.span.stop⟩

end Attribute

/-- The accepted spellings of an input: the plain attribute and its property binding. -/
def attributeNames (name : Bytes) : List Bytes := [name, "[" ++ name ++ "]"]

end Codemod.Markup
