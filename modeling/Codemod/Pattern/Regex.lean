namespace Codemod.Pattern

/-- A regular expression over characters. -/
inductive Regex where
  | empty
  /-- One character of the given ranges, or outside of them. -/
  | one (negated : Bool) (ranges : List (Char × Char))
  | start
  | stop
  | boundary
  | seq (a b : Regex)
  | alt (a b : Regex)
  | star (a : Regex)
  deriving Repr

/-- A place in a text: the character in front and what follows. -/
structure Place where
  previous : Option Char
  rest : List Char
  deriving DecidableEq, Repr

def isWordChar (c : Char) : Bool := c.isAlphanum || c == '_'

/-- All places reached from some by at most `n` steps that advance. -/
def closure (next : Place → List Place) : Nat → List Place → List Place
  | 0, places => places
  | n + 1, places =>
    let further := places.flatMap fun p => (next p).filter fun q => q.rest.length < p.rest.length
    if further.isEmpty then places else places ++ closure next n further

namespace Regex

/-- The places at which a match that begins at a place can end. -/
def ends : Regex → Place → List Place
  | empty, p => [p]
  | one negated ranges, p =>
    match p.rest with
    | [] => []
    | c :: s => if (ranges.any fun (a, b) => a ≤ c && c ≤ b) != negated then [⟨some c, s⟩] else []
  | start, p => if p.previous.isNone then [p] else []
  | stop, p => if p.rest.isEmpty then [p] else []
  | boundary, p => if p.previous.any isWordChar != p.rest.head?.any isWordChar then [p] else []
  | seq a b, p => (a.ends p).flatMap b.ends
  | alt a b, p => a.ends p ++ b.ends p
  | star a, p => closure a.ends p.rest.length [p]

/-- The expression matches somewhere from a place on. -/
def searchFrom (r : Regex) (previous : Option Char) : List Char → Bool
  | [] => !(r.ends ⟨previous, []⟩).isEmpty
  | c :: s => !(r.ends ⟨previous, c :: s⟩).isEmpty || r.searchFrom (some c) s

/-- The expression matches somewhere in the text. -/
def matchesIn (r : Regex) (text : List Char) : Bool := r.searchFrom none text

def digit : List (Char × Char) := [('0', '9')]

def blank : List (Char × Char) := [(' ', ' '), ('\t', '\n'), ('\x0c', '\r')]

def word : List (Char × Char) := [('0', '9'), ('A', 'Z'), ('a', 'z'), ('_', '_')]

/-- The character class that an escape stands for; any other character stands for itself. -/
def escape (c : Char) : Regex :=
  match c with
  | 'd' => one false digit
  | 's' => one false blank
  | 'w' => one false word
  | 'b' => boundary
  | c => one false [(c, c)]

/-- The ranges of a class up to its closing bracket. -/
def readClass (ranges : List (Char × Char)) : List Char → Option (List (Char × Char) × List Char)
  | [] => none
  | ']' :: s => some (ranges, s)
  | '\\' :: 's' :: s => readClass (ranges ++ blank) s
  | '\\' :: c :: s => readClass (ranges ++ [(c, c)]) s
  | a :: '-' :: ']' :: s => some (ranges ++ [(a, a), ('-', '-')], s)
  | a :: '-' :: b :: s => readClass (ranges ++ [(a, b)]) s
  | a :: s => readClass (ranges ++ [(a, a)]) s

/-- A repetition mark behind an expression. Whether it is greedy does not matter here. -/
def readRepeat (r : Regex) (s : List Char) : Regex × List Char :=
  match s with
  | '*' :: '?' :: s => (star r, s)
  | '*' :: s => (star r, s)
  | '+' :: s => (seq r (star r), s)
  | '?' :: s => (alt r empty, s)
  | s => (r, s)

/-- Read alternatives up to the end of a group; `done` holds the earlier ones and `current` the
one being read. Each step takes at least one character of at most `n`. -/
def read : Nat → Option Regex → Regex → List Char → Option (Regex × List Char)
  | 0, _, _, _ => none
  | n + 1, done, current, s =>
    let finish : Regex := match done with
      | some d => alt d current
      | none => current
    let proceed (r : Regex) (s : List Char) : Option (Regex × List Char) :=
      let (r, s) := readRepeat r s
      read n done (seq current r) s
    match s with
    | [] => some (finish, [])
    | ')' :: _ => some (finish, s)
    | '|' :: s => read n (some finish) empty s
    | '(' :: s =>
      let inner := match s with
        | '?' :: ':' :: s => s
        | s => s
      match read n none empty inner with
      | some (r, ')' :: rest) => proceed r rest
      | _ => none
    | '[' :: '^' :: s => (readClass [] s).bind fun (ranges, s) => proceed (one true ranges) s
    | '[' :: s => (readClass [] s).bind fun (ranges, s) => proceed (one false ranges) s
    | '\\' :: c :: s => proceed (escape c) s
    | '^' :: s => proceed start s
    | '$' :: s => proceed stop s
    | '.' :: s => proceed (one true [('\n', '\n')]) s
    | c :: s => proceed (one false [(c, c)]) s

/-- Read an expression in the usual notation. -/
def ofString? (s : String) : Option Regex :=
  match read (s.length + 1) none empty s.toList with
  | some (r, []) => some r
  | _ => none

end Regex

/-- An expression that is known to be well formed. -/
def pattern (written : String) : Regex := (Regex.ofString? written).getD .empty

end Codemod.Pattern
