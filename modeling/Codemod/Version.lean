import Codemod.Fault
import Codemod.Text.Blank

namespace Codemod

/-- A part of a pre-release mark. Numbers come before words. -/
inductive ReleaseMark where
  | number (n : Nat)
  | word (w : List Char)
  deriving DecidableEq, Repr

/-- A semantic version without its build part. -/
structure Version where
  major : Nat
  minor : Nat
  patch : Nat
  pre : List ReleaseMark
  deriving DecidableEq, Repr

namespace Version

def digitsValue (digits : List Char) : Nat := digits.foldl (fun n c => n * 10 + (c.toNat - 48)) 0

/-- A number without leading zeros in front of a text. -/
def readNumber (s : List Char) : Option (Nat × List Char) :=
  let digits := s.takeWhile Char.isDigit
  if digits.isEmpty || (digits.head? == some '0' && digits.length ≠ 1) then none
  else some (digitsValue digits, s.dropWhile Char.isDigit)

def splitChars (sep : Char) : List Char → List (List Char)
  | [] => [[]]
  | c :: s =>
    if c = sep then [] :: splitChars sep s
    else match splitChars sep s with
      | [] => [[c]]
      | piece :: rest => (c :: piece) :: rest

def isIdentChar (c : Char) : Bool := c.isAlphanum || c == '-'

/-- Dot-separated identifiers, none of them empty. -/
def identifiers? (s : List Char) : Option (List (List Char)) :=
  let parts := splitChars '.' s
  if parts.all fun p => !p.isEmpty && p.all isIdentChar then some parts else none

/-- A number has no leading zeros; anything else is a word. -/
def releaseMark? (part : List Char) : Option ReleaseMark :=
  if part.all Char.isDigit then
    if part.head? == some '0' && part.length ≠ 1 then none else some (.number (digitsValue part))
  else some (.word part)

/-- The pre-release and build parts after the three numbers. -/
def readSuffix (s : List Char) : Option (List ReleaseMark) := do
  let pre := s.takeWhile (· != '+')
  let build := s.dropWhile (· != '+')
  let marks ← match pre with
    | [] => some []
    | '-' :: marks => (identifiers? marks).bind (·.mapM releaseMark?)
    | _ => none
  match build with
  | [] => some marks
  | _ :: build => (identifiers? build).map fun _ => marks

/-- A version of one to three numbers; only three numbers can be followed by more. -/
def parse? (s : List Char) : Option Version := do
  let (major, s) ← readNumber s
  match s with
  | [] => some ⟨major, 0, 0, []⟩
  | '.' :: s =>
    let (minor, s) ← readNumber s
    match s with
    | [] => some ⟨major, minor, 0, []⟩
    | '.' :: s =>
      let (patch, s) ← readNumber s
      let pre ← readSuffix s
      some ⟨major, minor, patch, pre⟩
    | _ => none
  | _ => none

/-- Read a version, with or without a `v` in front and white space around it. -/
def ofString (text : String) : Except Fault Version :=
  let trimmed := Text.trimChars text.toList
  let digits := match trimmed with
    | 'v' :: rest => rest
    | rest => rest
  match parse? digits with
  | some v => .ok v
  | none => .error (.filed .invalidVersion (.plain (Text.quote text)))

def markText : ReleaseMark → List Char
  | .number n => (toString n).toList
  | .word w => w

/-- The canonical form: `v`, three numbers and the pre-release mark. -/
def toText (v : Version) : String :=
  "v" ++ toString v.major ++ "." ++ toString v.minor ++ "." ++ toString v.patch ++
    (if v.pre.isEmpty then "" else "-" ++ ".".intercalate (v.pre.map fun m => String.ofList (markText m)))

def compareChars : List Char → List Char → Ordering
  | [], [] => .eq
  | [], _ :: _ => .lt
  | _ :: _, [] => .gt
  | a :: s, b :: t => (compare a.toNat b.toNat).then (compareChars s t)

def ReleaseMark.compare : ReleaseMark → ReleaseMark → Ordering
  | .number m, .number n => Ord.compare m n
  | .number _, .word _ => .lt
  | .word _, .number _ => .gt
  | .word a, .word b => compareChars a b

def comparePre : List ReleaseMark → List ReleaseMark → Ordering
  | [], [] => .eq
  | [], _ :: _ => .lt
  | _ :: _, [] => .gt
  | a :: s, b :: t => (ReleaseMark.compare a b).then (comparePre s t)

/-- The order of precedence. A version without a pre-release mark comes after those with one. -/
def compare (a b : Version) : Ordering :=
  (Ord.compare a.major b.major).then <| (Ord.compare a.minor b.minor).then <|
    (Ord.compare a.patch b.patch).then <|
      match a.pre, b.pre with
      | [], [] => .eq
      | [], _ :: _ => .gt
      | _ :: _, [] => .lt
      | s, t => comparePre s t

/-- The order of versions as texts. What is no version comes before all that are. -/
def compareText (a b : String) : Ordering :=
  match ofString a, ofString b with
  | .ok v, .ok w => compare v w
  | .ok _, .error _ => .gt
  | .error _, .ok _ => .lt
  | .error _, .error _ => .eq

def le (a b : Version) : Bool := (compare a b).isLE

end Version

end Codemod
