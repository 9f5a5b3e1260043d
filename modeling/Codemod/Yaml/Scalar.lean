import Codemod.Pattern.Regex

namespace Codemod.Yaml

open Pattern (Regex)

def digitValue? (base : Nat) (c : Char) : Option Nat :=
  let value := if c.isDigit then c.toNat - 48
    else if 'a' ≤ c && c ≤ 'f' then c.toNat - 87
    else if 'A' ≤ c && c ≤ 'F' then c.toNat - 55
    else base
  if value < base then some value else none

/-- The number that digits stand for; there must be one at least. -/
def natIn? (base : Nat) (s : List Char) : Option Nat :=
  if s.isEmpty then none else s.foldlM (fun n c => (digitValue? base c).map (n * base + ·)) 0

/-- The base that a letter after a leading zero announces. -/
def announcedBase? (c : Char) : Option Nat :=
  [('b', 2), ('B', 2), ('o', 8), ('O', 8), ('x', 16), ('X', 16)].lookup c

/-- The number that digits stand for in the base they announce. A leading zero alone means
octal digits. -/
def announcedNat? (s : List Char) : Option Nat :=
  match s with
  | ['0'] => some 0
  | '0' :: c :: rest =>
    match announcedBase? c, rest with
    | some base, d :: more => natIn? base (d :: more)
    | _, _ => natIn? 8 (c :: rest)
  | s => natIn? 10 s

/-- A sign if there is one, and what follows it. -/
def splitSign : List Char → Option Char × List Char
  | '+' :: s => (some '+', s)
  | '-' :: s => (some '-', s)
  | s => (none, s)

/-- The number fits in 64 bits, with a sign bit where there is a sign. -/
def fits64 (sign : Option Char) (n : Nat) : Bool :=
  match sign with
  | some '-' => n ≤ Nat.pow 2 63
  | some _ => n < Nat.pow 2 63
  | none => n < Nat.pow 2 64

def isInteger (s : List Char) : Bool :=
  let (sign, digits) := splitSign s
  ((announcedNat? digits).any (fits64 sign)) || isAnnounced sign digits
where
  /-- Digits after an announced base may have a sign of their own. -/
  isAnnounced (sign : Option Char) : List Char → Bool
    | '0' :: c :: rest =>
      (c == 'b' || c == 'o') && sign.isNone &&
        let (inner, digits) := splitSign rest
        (natIn? (if c == 'b' then 2 else 8) digits).any (fits64 inner)
    | _ => false

def floatShape : Regex := Pattern.pattern r"^[-+]?(\.[0-9]+|[0-9]+(\.[0-9]*)?)([eE][-+]?[0-9]+)?$"

/-- The largest decimal that still rounds to a finite number lies below this. -/
def floatLimit : Nat := (Nat.pow 2 54 - 1) * Nat.pow 2 970

/-- The decimal rounds to a finite number of double precision. -/
def isFinite (s : List Char) : Bool :=
  let isMark (c : Char) : Bool := c == 'e' || c == 'E'
  let mantissa := ((splitSign s).2).takeWhile (!isMark ·)
  let exponent : Int := match splitSign ((s.dropWhile (!isMark ·)).drop 1) with
    | (sign, digits) =>
      let n : Int := (natIn? 10 digits).getD 0
      if sign == some '-' then -n else n
  let fraction := (mantissa.dropWhile (· != '.')).drop 1
  let digits := (mantissa.filter Char.isDigit).dropWhile (· == '0')
  let value := (natIn? 10 digits).getD 0
  let shift : Int := exponent - fraction.length
  let size : Int := digits.length + shift
  if value = 0 || size < 309 then true
  else if 309 < size then false
  else if 0 ≤ shift then value * Nat.pow 10 shift.toNat < floatLimit
  else value < floatLimit * Nat.pow 10 (-shift).toNat

def isFloat (s : List Char) : Bool := floatShape.matchesIn s && isFinite s

/-- Underscores stand between digits only. -/
def tidyUnderscores : Bool → List Char → Bool
  | _, [] => true
  | digitBefore, '_' :: c :: s => digitBefore && c.isDigit && tidyUnderscores false (c :: s)
  | _, ['_'] => false
  | _, c :: s => tidyUnderscores c.isDigit s

/-- One or two digits with a value within bounds, and what follows them. -/
def smallNat? (least most : Nat) (s : List Char) : Option (Nat × List Char) :=
  let digits := (s.take 2).takeWhile Char.isDigit
  match natIn? 10 digits with
  | some n => if least ≤ n && n ≤ most then some (n, s.drop digits.length) else none
  | none => none

def isLeapYear (year : Nat) : Bool := year % 4 == 0 && (year % 100 != 0 || year % 400 == 0)

def daysIn (year month : Nat) : Nat :=
  if month = 2 then (if isLeapYear year then 29 else 28)
  else if [4, 6, 9, 11].contains month then 30 else 31

/-- A zone: `Z`, or hours and minutes with a sign. -/
def isZone : List Char → Bool
  | ['Z'] => true
  | [sign, a, b, ':', c, d] =>
    (sign == '+' || sign == '-') && (natIn? 10 [a, b]).any (· ≤ 24) && (natIn? 10 [c, d]).any (· ≤ 60)
  | _ => false

/-- A time of day, a fraction of a second included, and what follows it. -/
def timeOfDay? (s : List Char) : Option (List Char) := do
  let (_, s) ← smallNat? 0 23 s
  let ':' :: s := s | none
  let (_, s) ← smallNat? 0 59 s
  let ':' :: s := s | none
  let (_, s) ← smallNat? 0 59 s
  match s with
  | mark :: c :: rest =>
    if (mark == '.' || mark == ',') && c.isDigit then some (rest.dropWhile Char.isDigit) else some s
  | _ => some s

/-- A date, alone or with a time. -/
def isTimestamp (s : List Char) : Bool :=
  let year := s.takeWhile Char.isDigit
  if year.length ≠ 4 then false
  else match s.drop 4 with
    | '-' :: s =>
      match smallNat? 1 12 s with
      | some (month, '-' :: s) =>
        match smallNat? 1 (daysIn ((natIn? 10 year).getD 0) month) s with
        | some (_, []) => true
        | some (_, mark :: s) =>
          if mark == 'T' || mark == 't' then (timeOfDay? s).any isZone
          else mark == ' ' && (timeOfDay? (s.dropWhile (· == ' '))).any List.isEmpty
        | none => false
      | _ => false
    | _ => false

/-- What a text can stand for. -/
inductive Kind where
  | null
  | switch (on : Bool)
  /-- A number that fits in 64 bits with a sign. -/
  | integer
  /-- A number that only fits in 64 bits without a sign. -/
  | large
  | decimal
  | time
  | text
  deriving DecidableEq, Repr

/-- Words with a meaning. -/
def words : List (String × Kind) :=
  (["", "~", "null", "Null", "NULL"].map fun word => (word, .null)) ++
    (["true", "True", "TRUE"].map fun word => (word, .switch true)) ++
    (["false", "False", "FALSE"].map fun word => (word, .switch false)) ++
    ([".nan", ".NaN", ".NAN", ".inf", ".Inf", ".INF", "+.inf", "+.Inf", "+.INF", "-.inf", "-.Inf",
      "-.INF"].map fun word => (word, .decimal))

/-- What digits with a sign or a point stand for. -/
def numberKind (s : List Char) : Kind :=
  let digits := s.filter (· != '_')
  if s.head? == some '.' then (if isFloat digits && tidyUnderscores false s then .decimal else .text)
  else if isTimestamp s then .time
  else if isInteger digits then
    (if (splitSign digits).1.isSome || isInteger ('+' :: digits) then .integer else .large)
  else if isFloat digits then .decimal
  else .text

/-- What a text stands for outside of quotes. -/
def plainKind (text : String) : Kind :=
  match words.lookup text, text.toList with
  | some kind, _ => kind
  | none, c :: s =>
    if c == '.' || c == '+' || c == '-' || c.isDigit then numberKind (c :: s) else .text
  | none, [] => .null

/-- Words that once meant true. -/
def yesWords : List String := ["y", "Y", "yes", "Yes", "YES", "on", "On", "ON"]

/-- Words that once meant false. -/
def noWords : List String := ["n", "N", "no", "No", "NO", "off", "Off", "OFF"]

/-- Numbers in base sixty. -/
def sexagesimal : Regex := Pattern.pattern r"^[-+]?[0-9][0-9_]*(?::[0-5]?[0-9])+(?:\.[0-9_]*)?$"

/-- The text means itself if it stands unquoted, for old readers too. -/
def meansItself (text : String) : Bool :=
  plainKind text = .text && !(yesWords.contains text || noWords.contains text || sexagesimal.matchesIn text.toList)

end Codemod.Yaml
