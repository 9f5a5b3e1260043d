import Codemod.Yaml.Problem
import Codemod.Yaml.Source

namespace Codemod.Yaml

def isFlowIndicator (c : Char) : Bool := [',', '?', '[', ']', '\x7b', '\x7d'].contains c

/-- The characters up to white space or an indicator that ends a plain scalar. -/
def plainWord (flow : Bool) : List Char → List Char
  | [] => []
  | c :: rest =>
    if isBlank c || isBreak c || (c == ':' && endsToken rest) || (flow && isFlowIndicator c) then []
    else c :: plainWord flow rest

/-- Read on in a gap. After a break no tab may stand left of the column `least`. -/
def Source.gap (least : Nat) (g : Gap) (s : Source) : Nat → Except Problem (Gap × Source)
  | 0 => .ok (g, s)
  | n + 1 =>
    match s.rest with
    | [] => .ok (g, s)
    | c :: _ =>
      if isBlank c then
        if g.crosses && c == '\t' && s.column < least then .error .tabIndent
        else s.next.gap least (if g.crosses then g else ⟨g.blanks ++ [c], []⟩) n
      else if isBreak c then s.next.gap least ⟨[], g.breaks ++ [c]⟩ n
      else .ok (g, s)

/-- The text of a plain scalar, the gap behind it, and what follows. It goes on over lines that
are indented to the column `least` at least. `gap` stands between what is taken and the source. -/
def plainText (flow : Bool) (least : Nat) (taken : List Char) (gap : Gap) (s : Source) :
    Nat → Except Problem (List Char × Gap × Source)
  | 0 => .ok (taken, gap, s)
  | n + 1 =>
    if s.atMarker || s.rest.head? == some '#' then .ok (taken, gap, s)
    else
      let word := plainWord flow s.rest
      if word.isEmpty then .ok (taken, gap, s)
      else
        let taken := taken ++ gap.text ++ word
        let after := s.skip word.length
        if after.rest.isEmpty || !endsToken after.rest then .ok (taken, .empty, after)
        else do
          let (gap, next) ← after.gap least .empty after.rest.length
          if !flow && next.column < least then return (taken, gap, next)
          plainText flow least taken gap next n

def hexValue? (digits : List Char) : Option Nat :=
  digits.foldlM (fun n c =>
    if c.isDigit then some (n * 16 + (c.toNat - 48))
    else if 'a' ≤ c && c ≤ 'f' then some (n * 16 + (c.toNat - 87))
    else if 'A' ≤ c && c ≤ 'F' then some (n * 16 + (c.toNat - 55))
    else none) 0

/-- The character of a one-letter escape. -/
def simpleEscape? (c : Char) : Option Char :=
  [('0', '\x00'), ('a', '\x07'), ('b', '\x08'), ('t', '\t'), ('\t', '\t'), ('n', '\n'), ('v', '\x0b'),
    ('f', '\x0c'), ('r', '\r'), ('e', '\x1b'), (' ', ' '), ('"', '"'), ('\'', '\''), ('\\', '\\'),
    ('N', '\x85'), ('_', '\xa0'), ('L', '\u2028'), ('P', '\u2029')].lookup c

/-- The number of digits after the letter of a numeric escape. -/
def escapeDigits? (c : Char) : Option Nat := [('x', 2), ('u', 4), ('U', 8)].lookup c

/-- The character that an escape with digits names. -/
def numericEscape (count : Nat) (s : List Char) : Except Problem Char :=
  match if (s.take count).length = count then hexValue? (s.take count) else none with
  | none => .error .badDigits
  | some value => if value.isValidChar then .ok (Char.ofNat value) else .error .badCodePoint

/-- The text of a double-quoted scalar after its opening quote. After a backslash at the end of a
line all further breaks are kept. -/
def doubleQuoted (taken : List Char) (s : Source) : Nat → Except Problem (List Char × Source)
  | 0 => .error .openQuote
  | n + 1 =>
    if s.atMarker then .error .markerInQuotes
    else match s.rest with
      | [] => .error .openQuote
      | '"' :: _ => .ok (taken, s.next)
      | '\\' :: c :: rest => do
        if isBreak c then
          let (gap, next) ← (s.skip 2).gap 0 .empty rest.length
          doubleQuoted (taken ++ gap.breaks) next n
        else match simpleEscape? c, escapeDigits? c with
          | some x, _ => doubleQuoted (taken ++ [x]) (s.skip 2) n
          | _, some count => doubleQuoted (taken ++ [← numericEscape count rest]) (s.skip (2 + count)) n
          | _, _ => throw .unknownEscape
      | c :: _ => do
        if isBlank c || isBreak c then
          let (gap, next) ← s.gap 0 .empty s.rest.length
          doubleQuoted (taken ++ gap.text) next n
        else doubleQuoted (taken ++ [c]) s.next n

/-- The text of a single-quoted scalar after its opening quote. A quote is written twice. -/
def singleQuoted (taken : List Char) (s : Source) : Nat → Except Problem (List Char × Source)
  | 0 => .error .openQuote
  | n + 1 =>
    if s.atMarker then .error .markerInQuotes
    else match s.rest with
      | [] => .error .openQuote
      | '\'' :: '\'' :: _ => singleQuoted (taken ++ ['\'']) (s.skip 2) n
      | '\'' :: _ => .ok (taken, s.next)
      | c :: _ => do
        if isBlank c || isBreak c then
          let (gap, next) ← s.gap 0 .empty s.rest.length
          singleQuoted (taken ++ gap.text) next n
        else singleQuoted (taken ++ [c]) s.next n

end Codemod.Yaml
