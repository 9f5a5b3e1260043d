import Codemod.Yaml.ScalarText
import Codemod.Yaml.Token

namespace Codemod.Yaml

/-- Characters of the names of anchors, handles and directives. -/
def isNameChar (c : Char) : Bool := c.isAlphanum || c == '_' || c == '-'

/-- What may follow the name of an anchor or a reference. -/
def endsAnchor (s : List Char) : Bool :=
  endsToken s || s.head?.any ['?', ':', ',', ']', '\x7d', '%', '@', '\x60'].contains

/-- The name of an anchor or a reference after its sign. -/
def anchorName (s : Source) : Except Problem (String × Source) :=
  let name := s.rest.takeWhile isNameChar
  let after := s.skip name.length
  if name.isEmpty || !endsAnchor after.rest then .error .badAnchor else .ok (String.ofList name, after)

/-- Characters of the name of a tag. -/
def isUriChar (c : Char) : Bool :=
  isNameChar c || [';', '/', '?', ':', '@', '&', '=', '+', '$', ',', '.', '!', '~', '*', '\'', '(', ')',
    '[', ']', '%'].contains c

/-- The number of bytes of a character with this first byte. -/
def sequenceWidth? (b : Nat) : Option Nat :=
  if b < 0x80 then some 1
  else if b / 0x20 = 6 then some 2
  else if b / 0x10 = 14 then some 3
  else if b / 8 = 30 then some 4
  else none

/-- A byte as a percent sign and two digits. -/
def escapedByte? : List Char → Option Nat
  | '%' :: a :: b :: _ => hexValue? [a, b]
  | _ => none

/-- The bytes of one character, each of them escaped. -/
def escapedBytes (s : List Char) : Except Problem (List Nat) :=
  match (escapedByte? s).bind sequenceWidth? with
  | none => .error .badTag
  | some width => do
    let list ← (List.range width).mapM fun i =>
      match escapedByte? (s.drop (3 * i)) with
      | some b => .ok b
      | none => .error .badTag
    if (list.drop 1).all fun b => b / 0x40 = 2 then return list else throw .badTag

/-- The rest of the name of a tag. Only characters of ASCII matter to the meaning of a tag; others
that are escaped stand as U+FFFD. -/
def uriText (taken : List Char) (s : Source) : Nat → Except Problem (List Char × Source)
  | 0 => .ok (taken, s)
  | n + 1 =>
    match s.rest with
    | [] => .ok (taken, s)
    | c :: _ =>
      if c == '%' then do
        let list ← escapedBytes s.rest
        let c := match list with
          | [b] => Char.ofNat b
          | _ => '\ufffd'
        uriText (taken ++ [c]) (s.skip (3 * list.length)) n
      else if isUriChar c then uriText (taken ++ [c]) s.next n
      else .ok (taken, s)

/-- The handle of a tag: an exclamation mark, and after a name a second one. -/
def handleText (s : Source) : List Char × Source :=
  let name := (s.rest.drop 1).takeWhile isNameChar
  let closing := (s.rest.drop (1 + name.length)).take 1
  let text := '!' :: name ++ (if closing == ['!'] then closing else [])
  (text, s.skip text.length)

def isHandle (s : List Char) : Bool := 1 < s.length && s.getLast? == some '!'

/-- A tag: its name in angle brackets, or a handle and the rest of the name. A lone exclamation
mark has no handle. -/
def tagToken (s : Source) : Except Problem (Token × Source) := do
  let fuel := s.rest.length
  let (token, next) ← if (s.rest.drop 1).head? == some '<' then do
      let (name, after) ← uriText [] (s.skip 2) fuel
      if name.isEmpty || after.rest.head? != some '>' then throw .badTag
      pure (Token.tag "" (String.ofList name), after.next)
    else do
      let (handle, after) := handleText s
      let (suffix, next) ← uriText (if isHandle handle then [] else handle.drop 1) after fuel
      if isHandle handle then
        if suffix.isEmpty then throw .badTag
        pure (Token.tag (String.ofList handle) (String.ofList suffix), next)
      else if suffix.isEmpty then pure (Token.tag "" "!", next)
      else pure (Token.tag "!" (String.ofList suffix), next)
  if endsToken next.rest then return (token, next) else throw .badTag

/-- A number of one or two digits. -/
def versionNumber (s : Source) : Except Problem (Nat × Source) :=
  let digits := s.rest.takeWhile Char.isDigit
  if digits.isEmpty || 2 < digits.length then .error .badDirective
  else .ok (digits.foldl (fun n c => n * 10 + (c.toNat - 48)) 0, s.skip digits.length)

/-- The version that a directive asks for. -/
def versionToken (s : Source) : Except Problem (Token × Source) := do
  let (major, s) ← versionNumber (s.skipWhile isBlank)
  if s.rest.head? != some '.' then throw .badDirective
  let (minor, s) ← versionNumber s.next
  return (.version major minor, s)

/-- The handle that a directive declares. -/
def handleToken (s : Source) : Except Problem (Token × Source) := do
  let s := s.skipWhile isBlank
  if s.rest.head? != some '!' then throw .badDirective
  let (handle, s) := handleText s
  if !(isHandle handle || handle == ['!']) || !s.rest.head?.any isBlank then throw .badDirective
  let s := s.skipWhile isBlank
  let (meaning, s) ← uriText [] s s.rest.length
  if meaning.isEmpty || !endsToken s.rest then throw .badDirective
  return (.handle (String.ofList handle) (String.ofList meaning), s)

/-- A directive after its percent sign, with the end of its line. -/
def directiveToken (s : Source) : Except Problem (Token × Source) := do
  let name := s.rest.takeWhile isNameChar
  let after := s.skip name.length
  if !endsToken after.rest then throw .badDirective
  let (token, s) ← match String.ofList name with
    | "YAML" => versionToken after
    | "TAG" => handleToken after
    | _ => throw .badDirective
  let s := s.skipWhile isBlank
  let s := if s.rest.head? == some '#' then s.skipWhile (!isBreak ·) else s
  match s.rest with
  | [] => return (token, s)
  | c :: _ => if isBreak c then return (token, s.next) else throw .trailingText

end Codemod.Yaml
