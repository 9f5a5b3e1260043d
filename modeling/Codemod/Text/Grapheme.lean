import Codemod.Text.Grapheme.Table

namespace Codemod.Text

/-- What a character does at the border of a cluster. -/
inductive ClusterRole where
  | control
  | extend
  | joiner
  | prepend
  | spacing
  | leading
  | vowel
  | trailing
  | openSyllable
  | closedSyllable
  | regional
  | pictograph
  | other
  deriving DecidableEq, Repr

/-- Line ends and other controls, which stand alone. -/
def isControl (c : Char) : Bool :=
  let n := c.toNat
  n < 32 || (0x7f ≤ n && n < 0xa0) || n == 0xad || n == 0x61c || n == 0x180e || n == 0x200b ||
    (0x200e ≤ n && n ≤ 0x200f) || (0x2028 ≤ n && n ≤ 0x202e) || (0x2060 ≤ n && n ≤ 0x206f) || n == 0xfeff ||
    (0xfff0 ≤ n && n ≤ 0xfffb) || (0x13430 ≤ n && n ≤ 0x1343f) || (0x1bca0 ≤ n && n ≤ 0x1bca3) ||
    (0x1d173 ≤ n && n ≤ 0x1d17a) || (0xe0000 ≤ n && n ≤ 0xe0fff)

def clusterRole (c : Char) : ClusterRole :=
  let n := c.toNat
  if n == 0x200d then .joiner
  else if within extendRanges c then .extend
  else if within spacingRanges c then .spacing
  else if within prependRanges c then .prepend
  else if isControl c then .control
  else if (0x1100 ≤ n && n ≤ 0x115f) || (0xa960 ≤ n && n ≤ 0xa97c) then .leading
  else if (0x1160 ≤ n && n ≤ 0x11a7) || (0xd7b0 ≤ n && n ≤ 0xd7c6) || n == 0x16d63 || (0x16d67 ≤ n && n ≤ 0x16d6a) then
    .vowel
  else if (0x11a8 ≤ n && n ≤ 0x11ff) || (0xd7cb ≤ n && n ≤ 0xd7fb) then .trailing
  else if 0xac00 ≤ n && n ≤ 0xd7a3 then (if (n - 0xac00) % 28 = 0 then .openSyllable else .closedSyllable)
  else if 0x1f1e6 ≤ n && n ≤ 0x1f1ff then .regional
  else if within pictographRanges c then .pictograph
  else .other

/-- How far a run of consonants has come: the last of them, or a linker after it. -/
inductive Conjunct where
  | none
  | consonant
  | linked
  deriving DecidableEq, Repr

/-- What the characters of a cluster so far say about the next one. -/
structure Cluster where
  last : ClusterRole
  /-- A pictograph, and after it only signs that extend it. -/
  pictured : Bool
  /-- The same with a joiner at the end. -/
  joined : Bool
  /-- A single regional indicator. -/
  halfFlag : Bool
  conjunct : Conjunct

namespace Cluster

/-- A consonant begins a run, and signs between consonants keep it. -/
def nextConjunct (before : Conjunct) (c : Char) : Conjunct :=
  if within consonantRanges c then .consonant
  else if before = .none then .none
  else if within linkerRanges c then .linked
  else if c == '\u200d' || (within extendRanges c && c != '\u200c') then before
  else .none

def ofChar (c : Char) : Cluster :=
  let role := clusterRole c
  ⟨role, role = .pictograph, false, role = .regional, nextConjunct .none c⟩

/-- The character belongs to the cluster. -/
def admits (k : Cluster) (c : Char) : Bool :=
  match k.last, clusterRole c with
  | .control, _ => false
  | _, .control => false
  | _, .extend => true
  | _, .joiner => true
  | _, .spacing => true
  | .prepend, _ => true
  | .leading, .leading => true
  | .leading, .vowel => true
  | .leading, .openSyllable => true
  | .leading, .closedSyllable => true
  | .openSyllable, .vowel => true
  | .openSyllable, .trailing => true
  | .vowel, .vowel => true
  | .vowel, .trailing => true
  | .closedSyllable, .trailing => true
  | .trailing, .trailing => true
  | .regional, .regional => k.halfFlag
  | _, .pictograph => k.joined
  | _, _ => k.conjunct = .linked && within consonantRanges c

def push (k : Cluster) (c : Char) : Cluster :=
  let role := clusterRole c
  { last := role
    pictured := role = .pictograph || (k.pictured && role = .extend)
    joined := k.pictured && role = .joiner
    halfFlag := role = .regional && !(k.last = .regional && k.halfFlag)
    conjunct := nextConjunct k.conjunct c }

/-- The number of characters that go on with the cluster. -/
def growth (k : Cluster) : List Char → Nat
  | [] => 0
  | c :: s => if k.admits c then (k.push c).growth s + 1 else 0

end Cluster

/-- The characters that a reader sees as the first one. -/
def firstCluster : List Char → List Char
  | [] => []
  | c :: s => c :: s.take ((Cluster.ofChar c).growth s)

end Codemod.Text
