import Codemod.Markup.Span

namespace Codemod.Markup

def isNameEnd (c : UInt8) : Bool := isSpace c || c == '/' || c == '>'

def isKeyEnd (c : UInt8) : Bool := isNameEnd c || c == '='

def isValueEnd (c : UInt8) : Bool := isSpace c || c == '>'

def isQuote (c : UInt8) : Bool := c == '"' || c == '\''

/-- Where an attribute's name and value lie. Without a value, the second range is empty
and follows the name. -/
structure Extent where
  key : Span
  value : Span
  deriving DecidableEq, Repr

/-- Move over an attribute name. An equals sign in front belongs to it. -/
def Cursor.skipKey (c : Cursor) : Cursor :=
  match c.rest with
  | [] => c
  | x :: r => if x == '=' then Cursor.skip (!isKeyEnd ·) ⟨c.pos + 1, r⟩ else c.skip (!isKeyEnd ·)

/-- Read what follows an attribute name. A slash there ends the attribute and is consumed. -/
def readValue (c : Cursor) : Option (Span × Cursor) :=
  let absent : Span := ⟨c.pos, c.pos⟩
  let sign := c.skip isSpace
  match sign.rest with
  | [] => none
  | x :: r =>
    if x == '/' then some (absent, ⟨sign.pos + 1, r⟩)
    else if x != '=' then some (absent, sign)
    else
      let first := Cursor.skip isSpace ⟨sign.pos + 1, r⟩
      match first.rest with
      | [] => none
      | q :: r =>
        if q == '>' then some (absent, first)
        else if isQuote q then
          let close := Cursor.skip (· != q) ⟨first.pos + 1, r⟩
          match close.rest with
          | [] => none
          | _ :: r => some (⟨first.pos + 1, close.pos⟩, ⟨close.pos + 1, r⟩)
        else
          let close := first.skip (!isValueEnd ·)
          some (⟨first.pos, close.pos⟩, close)

theorem readValue_length_le {c next : Cursor} {v : Span} (h : readValue c = some (v, next)) :
    next.rest.length ≤ c.rest.length := by
  have hs := Cursor.skip_length_le isSpace c
  unfold readValue at h
  dsimp only at h
  split at h
  · contradiction
  · next x r hx =>
    have hsx : r.length + 1 ≤ c.rest.length := by simpa [hx] using hs
    split at h
    · cases h; exact Nat.le_of_succ_le hsx
    · split at h
      · cases h; exact hs
      · have hf := Cursor.skip_length_le isSpace ⟨(c.skip isSpace).pos + 1, r⟩
        split at h
        · contradiction
        · next q r' hq =>
          rw [hq] at hf
          simp only [List.length_cons] at hf
          split at h
          · cases h; rw [hq]; simp only [List.length_cons]; omega
          · split at h
            · have hc := Cursor.skip_length_le (· != q)
                ⟨(Cursor.skip isSpace ⟨(c.skip isSpace).pos + 1, r⟩).pos + 1, r'⟩
              split at h
              · contradiction
              · next y r'' hy =>
                rw [hy] at hc
                simp only [List.length_cons] at hc
                cases h; dsimp only; omega
            · cases h
              have hc := Cursor.skip_length_le (!isValueEnd ·)
                (Cursor.skip isSpace ⟨(c.skip isSpace).pos + 1, r⟩)
              rw [hq] at hc
              simp only [List.length_cons] at hc
              omega

/-- An attribute takes at least one byte: its name does, or the slash that stands for it. -/
theorem readValue_skipKey_length_lt {c next : Cursor} {x : UInt8} {r : Bytes} {v : Span}
    (hc : c.rest = x :: r) (hx : isSpace x = false) (hgt : (x == ('>' : Char).toUInt8) = false)
    (h : readValue c.skipKey = some (v, next)) : next.rest.length < c.rest.length := by
  by_cases hkey : isKeyEnd x = true
  · by_cases heq : (x == ('=' : Char).toUInt8) = true
    · have hk : c.skipKey = Cursor.skip (!isKeyEnd ·) ⟨c.pos + 1, r⟩ := by
        simp [Cursor.skipKey, hc, heq]
      have h1 := readValue_length_le h
      have h2 := Cursor.skip_length_le (!isKeyEnd ·) ⟨c.pos + 1, r⟩
      rw [hk] at h1
      simp only [hc, List.length_cons] at h2 ⊢
      omega
    · have hslash : (x == ('/' : Char).toUInt8) = true := by
        simp [isKeyEnd, isNameEnd, hx, hgt] at hkey heq
        simpa [heq] using hkey
      have hk : c.skipKey = c := by
        have hd : (x :: r).dropWhile (!isKeyEnd ·) = x :: r := by simp [hkey]
        have ht : (x :: r).takeWhile (!isKeyEnd ·) = [] := by simp [hkey]
        simp only [Cursor.skipKey, hc, heq, Cursor.skip, hd, ht, List.length_nil, Nat.add_zero]
        cases c; simp_all
      have hsp : c.skip isSpace = c := by
        have hd : (x :: r).dropWhile isSpace = x :: r := by simp [hx]
        have ht : (x :: r).takeWhile isSpace = [] := by simp [hx]
        simp only [Cursor.skip, hc, hd, ht, List.length_nil, Nat.add_zero]
        cases c; simp_all
      rw [hk] at h
      unfold readValue at h
      simp only [hsp, hc, hslash, if_true] at h
      cases h
      simp [hc]
  · have hk : c.skipKey.rest.length < c.rest.length := by
      have heq : (x == ('=' : Char).toUInt8) = false := by
        simp [isKeyEnd] at hkey
        simp [hkey.2]
      have hd : (x :: r).dropWhile (!isKeyEnd ·) = r.dropWhile (!isKeyEnd ·) := by simp [hkey]
      simp only [Cursor.skipKey, hc, heq, Cursor.skip, hd, List.length_cons]
      have := dropWhile_length_le (!isKeyEnd ·) r
      simp only [Bool.false_eq_true, if_false]
      omega
    exact Nat.lt_of_le_of_lt (readValue_length_le h) hk

/-- Read attributes up to and including the closing angle bracket. An attribute without a
name is dropped. Nothing comes back when the text ends first. -/
def readAttrs (c : Cursor) : Option (List Extent × Cursor) :=
  let key := c.skip isSpace
  match _hk : key.rest with
  | [] => none
  | x :: r =>
    if hx : x == '>' then some ([], ⟨key.pos + 1, r⟩)
    else
      let stop := key.skipKey
      match _hv : readValue stop with
      | none => none
      | some (value, next) =>
        match readAttrs next with
        | none => none
        | some (attrs, last) =>
          if key.pos = stop.pos then some (attrs, last)
          else some (⟨⟨key.pos, stop.pos⟩, value⟩ :: attrs, last)
termination_by c.rest.length
decreasing_by
  have hle := Cursor.skip_length_le isSpace c
  have hsp : isSpace x = false := by
    have hd : c.rest.dropWhile isSpace = x :: r := _hk
    have := List.head?_dropWhile_not isSpace c.rest
    rw [hd] at this
    simpa using this
  have := readValue_skipKey_length_lt _hk hsp (by simpa using hx) _hv
  exact Nat.lt_of_lt_of_le this hle

/-- A tag as the tokenizer reads it: the name, the attributes and where the text goes on. -/
structure TagReading where
  name : Span
  attrs : List Extent
  next : Cursor
  deriving DecidableEq, Repr

/-- Read a tag from the first letter of its name. -/
def readTag (c : Cursor) : Option TagReading :=
  let stop := c.skip (!isNameEnd ·)
  (readAttrs stop).map fun (attrs, next) => ⟨⟨c.pos, stop.pos⟩, attrs, next⟩

/-- The bytes of a comment after its opening `<!--`, through the closing `-->` or `--!>` or to
the end of the text. Only dashes so far (`fresh`) means that a bracket closes it at once. -/
def commentLength (dashes : Nat) (fresh : Bool) : Bytes → Nat
  | [] => 0
  | c :: s =>
    if c == '-' then 1 + commentLength (dashes + 1) fresh s
    else if c == '>' && (2 ≤ dashes || fresh) then 1
    else if c == '!' && 2 ≤ dashes then
      match s with
      | [] => 1
      | d :: s =>
        if d == '>' then 2
        else if d == '-' then 2 + commentLength 1 false s
        else 2 + commentLength 0 false s
    else 1 + commentLength 0 false s

/-- The bytes through the next closing angle bracket, or to the end. -/
def throughAngle : Bytes → Nat
  | [] => 0
  | c :: s => if c == '>' then 1 else 1 + throughAngle s

/-- The text starts with a name, in any case, and a byte that ends a name. -/
def startsName (name : Bytes) (s : Bytes) : Bool :=
  (s.take name.length).map Bytes.lowerLetter == name &&
    match s.drop name.length with
    | [] => false
    | c :: _ => isNameEnd c

/-- The text after an opening angle bracket is the end tag of the named element. -/
def startsEndTag (name : Bytes) : Bytes → Bool
  | [] => false
  | c :: s => c == '/' && startsName name s

/-- The bytes before the end tag of the named element, or to the end. -/
def rawTextLength (name : Bytes) : Bytes → Nat
  | [] => 0
  | c :: s => if c == '<' && startsEndTag name s then 0 else 1 + rawTextLength name s

/-- Scripts may hide their end tag: within a comment (`escaped`) and, inside it, within a
nested script (`doubled`). The numbers count the dashes just read. -/
inductive ScriptState where
  | plain
  | escaped (dashes : Nat)
  | doubled (dashes : Nat)
  deriving DecidableEq, Repr

/-- The bytes of a script before its end tag, or to the end; `skip` bytes are taken unseen. -/
def scriptLength (skip : Nat) (state : ScriptState) : Bytes → Nat
  | [] => 0
  | c :: s =>
    if skip ≠ 0 then 1 + scriptLength (skip - 1) state s
    else match state with
      | .plain =>
        if c == '<' then
          if startsEndTag "script" s then 0
          else if Bytes.startsWith s "!--" then 1 + scriptLength 3 (.escaped 2) s
          else 1 + scriptLength 0 .plain s
        else 1 + scriptLength 0 .plain s
      | .escaped dashes =>
        if c == '<' then
          match s with
          | [] => 1
          | d :: r =>
            if d == '/' then
              if startsName "script" r then 0 else 1 + scriptLength 0 (.escaped 0) s
            else if Bytes.isLetter d then
              if startsName "script" s then 1 + scriptLength 7 (.doubled 0) s
              else 1 + scriptLength 0 (.escaped 0) s
            else 1 + scriptLength 0 .plain s
        else if c == '-' then 1 + scriptLength 0 (.escaped (dashes + 1)) s
        else if c == '>' && 2 ≤ dashes then 1 + scriptLength 0 .plain s
        else 1 + scriptLength 0 (.escaped 0) s
      | .doubled dashes =>
        if c == '<' then
          if startsEndTag "script" s then 1 + scriptLength 8 (.escaped 0) s
          else 1 + scriptLength 0 (.doubled 0) s
        else if c == '-' then 1 + scriptLength 0 (.doubled (dashes + 1)) s
        else if c == '>' && 2 ≤ dashes then 1 + scriptLength 0 .plain s
        else 1 + scriptLength 0 (.doubled 0) s

/-- Elements whose content is text up to their own end tag. -/
def rawTextNames : List Bytes :=
  ["iframe", "noembed", "noframes", "noscript", "plaintext", "script", "style", "textarea",
    "title", "xmp"]

/-- The length of the text that an element with raw content starts with. -/
def rawContentLength (name content : Bytes) : Nat :=
  if name = "plaintext" then content.length
  else if name = "script" then scriptLength 0 .plain content
  else rawTextLength name content

/-- What follows an opening angle bracket makes it the start of markup. -/
def opensMarkup : Bytes → Bool
  | [] => false
  | c :: s => Bytes.isLetter c || c == '!' || c == '?' || (c == '/' && !s.isEmpty)

def textLength : Bytes → Nat
  | [] => 0
  | c :: s => if c == '<' && opensMarkup s then 0 else 1 + textLength s

inductive TokenKind where
  | text
  | comment
  | startTag (name : Bytes) (attrs : List Extent) (selfClosing : Bool)
  | endTag
  /-- The text ends inside a tag. -/
  | unfinished
  deriving DecidableEq, Repr

structure Token where
  kind : TokenKind
  start : Nat
  raw : Bytes
  deriving DecidableEq, Repr

def Token.stop (t : Token) : Nat := t.start + t.raw.length

/-- A slash before the bracket closes the tag unless it ends the value of the last attribute. -/
def closesItself (tag : TagReading) (raw : Bytes) : Bool :=
  (raw.reverse.drop 1).head?.any fun (c : UInt8) =>
    c == '/' && match tag.attrs.getLast? with
      | none => true
      | some a => a.value.stop + 1 ≠ tag.next.pos

/-- The token of a tag whose name begins `lead` bytes after the cursor. -/
def scanTag (c : Cursor) (lead : Nat) (kind : TagReading → Bytes → TokenKind) : TokenKind × Nat :=
  match readTag ⟨c.pos + lead, c.rest.drop lead⟩ with
  | none => (.unfinished, c.rest.length)
  | some tag =>
    let length := tag.next.pos - c.pos
    (kind tag (c.rest.take length), length)

def startTagKind (tag : TagReading) (raw : Bytes) : TokenKind :=
  .startTag (raw.slice 1 (1 + (tag.name.stop - tag.name.start))) tag.attrs (closesItself tag raw)

/-- The token after an opening angle bracket that starts markup; `s` follows the bracket. -/
def scanMarkup (c : Cursor) (s : Bytes) : TokenKind × Nat :=
  match s with
  | [] => (.text, 1)
  | d :: r =>
    if Bytes.isLetter d then scanTag c 1 startTagKind
    else if d == '/' then
      if r.head?.any Bytes.isLetter then scanTag c 2 fun _ _ => .endTag
      else (.comment, 2 + throughAngle r)
    else if Bytes.startsWith s "!--" then (.comment, 4 + commentLength 0 true (s.drop 3))
    else (.comment, 1 + throughAngle s)

/-- The kind and length of the token at a cursor whose text is not empty. -/
def scanToken (c : Cursor) : TokenKind × Nat :=
  match c.rest with
  | [] => (.text, 0)
  | x :: s =>
    if x == '<' && opensMarkup s then scanMarkup c s else (.text, 1 + textLength s)

/-- The element with raw content that a token opens. -/
def TokenKind.rawText? : TokenKind → Option Bytes
  | .startTag name _ _ =>
    let name := name.map Bytes.lowerLetter
    if rawTextNames.contains name then some name else none
  | _ => none

/-- The tokens from a cursor on; `within` names the element whose raw content starts there. -/
def tokensFrom (within : Option Bytes) (c : Cursor) : List Token :=
  match h : c.rest with
  | [] => []
  | x :: r =>
    let rawLength := within.elim 0 (rawContentLength · c.rest)
    let scanned := if rawLength = 0 then scanToken c else (.text, rawLength)
    let extra := scanned.2 - 1
    ⟨scanned.1, c.pos, x :: r.take extra⟩ ::
      tokensFrom scanned.1.rawText? ⟨c.pos + 1 + (r.take extra).length, r.drop extra⟩
termination_by c.rest.length
decreasing_by
  rw [h]
  simp only [List.length_drop, List.length_cons]
  omega

/-- Cut a template into tokens that together are its content. -/
def tokens (content : Bytes) : List Token := tokensFrom none ⟨0, content⟩

end Codemod.Markup
