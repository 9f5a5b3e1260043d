import Codemod.Json.Value
import Codemod.Text.Utf8

namespace Codemod.Json

def isSpace (c : UInt8) : Bool := c == ' ' || c == '\t' || c == '\n' || c == '\r'

def skipSpace (s : Bytes) : Bytes := s.dropWhile isSpace

def hexDigit? (c : UInt8) : Option Nat :=
  if Bytes.isDigit c then some (c.toNat - 48)
  else if 97 ≤ c && c ≤ 102 then some (c.toNat - 87)
  else if 65 ≤ c && c ≤ 70 then some (c.toNat - 55)
  else none

/-- The code unit that four hexadecimal digits name. -/
def unit? : Bytes → Option (Nat × Bytes)
  | a :: b :: c :: d :: s => do
    return ((((← hexDigit? a) * 16 + (← hexDigit? b)) * 16 + (← hexDigit? c)) * 16 + (← hexDigit? d), s)
  | _ => none

def replacement : Bytes := String.utf8EncodeChar '\ufffd'

/-- The character of a numeric escape after its letter. Two escapes can make one character; half
of such a pair is replaced. -/
def escapedUnit? (s : Bytes) : Option (Bytes × Bytes) := do
  let (high, s) ← unit? s
  if high < 0xd800 || 0xdfff < high then return (String.utf8EncodeChar (Char.ofNat high), s)
  let low? : Option (Nat × Bytes) := match s with
    | a :: b :: rest => if a == '\\' && b == 'u' then unit? rest else none
    | _ => none
  match low? with
  | some (low, rest) =>
    if high < 0xdc00 && 0xdc00 ≤ low && low ≤ 0xdfff then
      return (String.utf8EncodeChar (Char.ofNat (0x10000 + (high - 0xd800) * 1024 + (low - 0xdc00))), rest)
    else return (replacement, s)
  | none => return (replacement, s)

def simpleEscape? (c : UInt8) : Option UInt8 :=
  [(34, 34), (92, 92), (47, 47), (98, 8), (102, 12), (110, 10), (114, 13), (116, 9)].lookup c

/-- The text of a string after its opening quote. -/
def stringTail? (taken : Bytes) : Nat → Bytes → Option (Bytes × Bytes)
  | 0, _ => none
  | n + 1, s =>
    match s with
    | [] => none
    | c :: rest =>
      if c == '"' then some (taken, rest)
      else if c < 32 then none
      else if c == '\\' then
        match rest with
        | [] => none
        | e :: after =>
          if e == 'u' then
            match escapedUnit? after with
            | some (char, after) => stringTail? (taken ++ char) n after
            | none => none
          else match simpleEscape? e with
            | some b => stringTail? (taken ++ [b]) n after
            | none => none
      else match Text.firstChar? (c :: rest) with
        | some (_, extra) => stringTail? (taken ++ c :: rest.take extra) n (rest.drop extra)
        | none => stringTail? (taken ++ replacement) n rest

/-- Digits, of which there must be one at least. -/
def digits? (s : Bytes) : Option (Bytes × Bytes) :=
  let digits := s.takeWhile Bytes.isDigit
  if digits.isEmpty then none else some (digits, s.drop digits.length)

/-- A point and digits, if a point comes next. -/
def fraction? : Bytes → Option (Bytes × Bytes)
  | [] => some ([], [])
  | c :: s => if c == '.' then (digits? s).map fun (d, s) => (c :: d, s) else some ([], c :: s)

/-- An exponent, if its letter comes next. -/
def exponent? : Bytes → Option (Bytes × Bytes)
  | [] => some ([], [])
  | c :: s =>
    if c == 'e' || c == 'E' then
      let sign := (s.take 1).takeWhile fun (d : UInt8) => d == '+' || d == '-'
      (digits? (s.drop sign.length)).map fun (d, s) => (c :: sign ++ d, s)
    else some ([], c :: s)

/-- A number as it is written. Its integer part has no superfluous zero. -/
def number? (s : Bytes) : Option (Bytes × Bytes) := do
  let sign := (s.take 1).takeWhile fun (d : UInt8) => d == '-'
  let (whole, s) ← digits? (s.drop sign.length)
  guard (whole.length = 1 || whole.head? != some 48)
  let (fraction, s) ← fraction? s
  let (exponent, s) ← exponent? s
  return (sign ++ whole ++ fraction ++ exponent, s)

/-- A word with a meaning of its own. -/
def word? (s : Bytes) : Option (Value × Bytes) :=
  if s.startsWith "true" then some (.bool true, s.drop 4)
  else if s.startsWith "false" then some (.bool false, s.drop 5)
  else if s.startsWith "null" then some (.null, s.drop 4)
  else none

/-- How deep values may lie in one another. -/
def deepest : Nat := 10000

mutual

/-- A value, in which others may lie so many levels deep, and what follows it. -/
def value? : Nat → Nat → Bytes → Option (Value × Bytes)
  | 0, _, _ => none
  | n + 1, levels, s =>
    match skipSpace s with
    | [] => none
    | c :: rest =>
      if c == '"' then (stringTail? [] (rest.length + 1) rest).map fun (t, s) => (.string t, s)
      else if c == '[' then
        match levels, skipSpace rest with
        | levels + 1, d :: after => if d == ']' then some (.array [], after) else items? n levels [] rest
        | _, _ => none
      else if c == '\x7b' then
        match levels, skipSpace rest with
        | levels + 1, d :: after =>
          if d == '\x7d' then some (.object [], after) else entries? n levels [] rest
        | _, _ => none
      else if c == '-' || Bytes.isDigit c then (number? (c :: rest)).map fun (t, s) => (.number t, s)
      else word? (c :: rest)

/-- The items of an array up to its end. -/
def items? : Nat → Nat → List Value → Bytes → Option (Value × Bytes)
  | 0, _, _, _ => none
  | n + 1, levels, taken, s =>
    match value? n levels s with
    | none => none
    | some (item, s) =>
      match skipSpace s with
      | [] => none
      | c :: rest =>
        if c == ',' then items? n levels (taken ++ [item]) rest
        else if c == ']' then some (.array (taken ++ [item]), rest)
        else none

/-- The entries of an object up to its end. -/
def entries? : Nat → Nat → List (Bytes × Value) → Bytes → Option (Value × Bytes)
  | 0, _, _, _ => none
  | n + 1, levels, taken, s =>
    match value? n levels s with
    | some (.string key, s) =>
      match skipSpace s with
      | [] => none
      | colon :: rest =>
        if colon != ':' then none
        else match value? n levels rest with
          | none => none
          | some (value, s) =>
            let taken := taken ++ [(key, value)]
            match skipSpace s with
            | [] => none
            | c :: rest =>
              if c == ',' then entries? n levels taken rest
              else if c == '\x7d' then some (.object taken, rest)
              else none
    | _ => none

end

/-- Read a text that holds one value and nothing else. -/
def read? (s : Bytes) : Option Value :=
  match value? (s.length + 1) deepest s with
  | some (value, rest) => if (skipSpace rest).isEmpty then some value else none
  | none => none

end Codemod.Json
