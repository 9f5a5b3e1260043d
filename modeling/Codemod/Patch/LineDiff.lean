import Codemod.Total
namespace Codemod.Patch

/-- What a stretch of a comparison is: in both texts, only in the second, only in the first. -/
inductive Side where
  | both
  | added
  | removed
  deriving DecidableEq, Repr

structure Chunk (α : Type) where
  side : Side
  items : List α
  deriving DecidableEq, Repr

variable {α : Type} [DecidableEq α]

def commonHead : List α → List α → Nat
  | a :: s, b :: t => if a = b then 1 + commonHead s t else 0
  | _, _ => 0

def commonTail (s t : List α) : Nat := commonHead s.reverse t.reverse

/-- The offsets at which `part` occurs, ascending. -/
def occurrences (part : List α) (start : Nat) : List α → List Nat
  | [] => if part.isEmpty then [start] else []
  | a :: s =>
    let later := occurrences part (start + 1) s
    if part.isPrefixOf (a :: s) then start :: later else later

/-- Edits since the last common stretch. -/
structure EditRun (α : Type) where
  removed : List α
  added : List α
  removals : Nat
  additions : Nat

def EditRun.empty : EditRun α := ⟨[], [], 0, 0⟩

/-- Add items to the common stretch that was written last, or begin one. -/
def extendBoth (done : List (Chunk α)) (items : List α) : List (Chunk α) :=
  match done with
  | ⟨.both, last⟩ :: rest => ⟨.both, last ++ items⟩ :: rest
  | _ => ⟨.both, items⟩ :: done

/-- Write a run of edits and the common stretch after it, in reverse. Several edits become one
removal and one addition, and what these have in common joins the neighbouring stretches. -/
def EditRun.close (run : EditRun α) (done : List (Chunk α)) (common : List α) : List (Chunk α) :=
  if run.removals + run.additions = 0 then extendBoth done common
  else if run.removals = 0 then ⟨.both, common⟩ :: ⟨.added, run.added⟩ :: done
  else if run.additions = 0 then ⟨.both, common⟩ :: ⟨.removed, run.removed⟩ :: done
  else
    let head := commonHead run.added run.removed
    let done := if head = 0 then done else extendBoth done (run.added.take head)
    let added := run.added.drop head
    let removed := run.removed.drop head
    let tail := commonTail added removed
    ⟨.both, added.drop (added.length - tail) ++ common⟩ ::
      ⟨.added, added.take (added.length - tail)⟩ ::
      ⟨.removed, removed.take (removed.length - tail)⟩ :: done

/-- Merge neighbouring chunks; `done` holds what is written, last chunk first. -/
def mergeRuns (done : List (Chunk α)) (run : EditRun α) : List (Chunk α) → List (Chunk α)
  | [] =>
    match run.close done [] with
    | ⟨_, []⟩ :: rest => rest.reverse
    | chunks => chunks.reverse
  | ⟨.both, items⟩ :: rest => mergeRuns (run.close done items) .empty rest
  | ⟨.added, items⟩ :: rest =>
    mergeRuns done { run with added := run.added ++ items, additions := run.additions + 1 } rest
  | ⟨.removed, items⟩ :: rest =>
    mergeRuns done { run with removed := run.removed ++ items, removals := run.removals + 1 } rest

/-- Move an edit between two common stretches over one of them where that makes the other
vanish. Says whether anything moved. -/
def shiftEdits : List (Chunk α) → List (Chunk α) × Bool
  | prev :: edit :: next :: rest =>
    if prev.side = .both ∧ next.side = .both ∧ prev.items.isSuffixOf edit.items then
      let kept := edit.items.take (edit.items.length - prev.items.length)
      let shifted := shiftEdits (⟨.both, prev.items ++ next.items⟩ :: rest)
      (⟨edit.side, prev.items ++ kept⟩ :: shifted.1, true)
    else if prev.side = .both ∧ next.side = .both ∧ next.items.isPrefixOf edit.items then
      let kept := edit.items.drop next.items.length
      let shifted := shiftEdits (⟨edit.side, kept ++ next.items⟩ :: rest)
      (⟨.both, prev.items ++ next.items⟩ :: shifted.1, true)
    else
      let shifted := shiftEdits (edit :: next :: rest)
      (prev :: shifted.1, shifted.2)
  | chunks => (chunks, false)
termination_by chunks => chunks.length

/-- The number of items in edits. -/
def editSize (chunks : List (Chunk α)) : Nat :=
  total (chunks.map fun c => if c.side = .both then 0 else c.items.length)

/-- The number of common stretches. -/
def commonCount (chunks : List (Chunk α)) : Nat := (chunks.filter (·.side = .both)).length

/-- Merge and shift until nothing moves. Every round that moves something leaves less in edits
or fewer common stretches. -/
def normalize (chunks : List (Chunk α)) : List (Chunk α) :=
  let shifted := shiftEdits (mergeRuns [] .empty chunks)
  if shifted.2 then
    if editSize shifted.1 < editSize chunks ∨
        (editSize shifted.1 = editSize chunks ∧ commonCount shifted.1 < commonCount chunks) then
      normalize shifted.1
    else shifted.1
  else shifted.1
termination_by (editSize chunks, commonCount chunks)
decreasing_by
  rename_i h
  rcases h with h | ⟨h, h'⟩
  · exact Prod.Lex.left _ _ h
  · rw [← h]; exact Prod.Lex.right _ h'

/-- A common middle with what surrounds it in both texts. -/
structure HalfMatch (α : Type) where
  firstHead : List α
  firstTail : List α
  secondHead : List α
  secondTail : List α
  common : List α

/-- The longest common stretch of two texts around a seed: a quarter of the longer one that
starts at `at`. It must cover half of the longer text. -/
def seedMatch? (long short : List α) (place : Nat) : Option (HalfMatch α) :=
  let seed := (long.drop place).take (long.length / 4)
  let longest := (occurrences seed 0 short).foldl (fun best j =>
    let after := commonHead (long.drop place) (short.drop j)
    let before := commonTail (long.take place) (short.take j)
    if best.2.1 + best.2.2 < before + after then (j, before, after) else best) (0, 0, 0)
  let (j, before, after) := longest
  if (before + after) * 2 < long.length then none
  else some
    { firstHead := long.take (place - before)
      firstTail := long.drop (place + after)
      secondHead := short.take (j - before)
      secondTail := short.drop (j + after)
      common := (short.drop (j - before)).take (before + after) }

def HalfMatch.swap (m : HalfMatch α) : HalfMatch α :=
  ⟨m.secondHead, m.secondTail, m.firstHead, m.firstTail, m.common⟩

/-- The match with the longer common stretch; of two alike the second. -/
def HalfMatch.longer? : Option (HalfMatch α) → Option (HalfMatch α) → Option (HalfMatch α)
  | some x, some y => some (if y.common.length < x.common.length then x else y)
  | some x, none => some x
  | none, y => y

/-- A common stretch of at least half the longer text, sought from its second and third
quarter. -/
def halfMatch? (a b : List α) : Option (HalfMatch α) :=
  let (long, short) := if b.length < a.length then (a, b) else (b, a)
  if long.length < 4 ∨ short.length * 2 < long.length then none
  else
    let best := HalfMatch.longer? (seedMatch? long short ((long.length + 3) / 4))
      (seedMatch? long short ((long.length + 1) / 2))
    if b.length < a.length then best else best.map HalfMatch.swap

/-- The furthest offset in the first text per diagonal, and how many diagonals at either end
have left the texts. -/
structure Frontier where
  reach : Array Int
  low : Nat
  high : Nat

/-- Follow equal items along a diagonal. -/
def slide (a b : Array α) (x y : Int) : Nat → Int × Int
  | 0 => (x, y)
  | steps + 1 =>
    if x < 0 ∨ y < 0 then (x, y)
    else match a[x.toNat]?, b[y.toNat]? with
      | some p, some q => if p = q then slide a b (x + 1) (y + 1) steps else (x, y)
      | _, _ => (x, y)

/-- Extend every diagonal of one frontier by one edit; `meets` says where it meets the other
frontier. -/
def sweep (a b : Array α) (offset : Int) (d : Nat) (meets : Int → Int → Int → Option (Int × Int))
    (k : Int) (f : Frontier) : Frontier ⊕ (Int × Int) :=
  if k ≤ (d : Int) - f.high then
    let reach (i : Int) : Int := if i < 0 then -1 else f.reach.getD i.toNat (-1)
    let here := offset + k
    let x := if k = -(d : Int) ∨ (k ≠ d ∧ reach (here - 1) < reach (here + 1)) then reach (here + 1)
      else reach (here - 1) + 1
    let (x, y) := slide a b x (x - k) (a.size + b.size)
    let f := { f with reach := f.reach.setIfInBounds here.toNat x }
    if (a.size : Int) < x then sweep a b offset d meets (k + 2) { f with high := f.high + 2 }
    else if (b.size : Int) < y then sweep a b offset d meets (k + 2) { f with low := f.low + 2 }
    else match meets k x y with
      | some place => .inr place
      | none => sweep a b offset d meets (k + 2) f
  else .inl f
termination_by ((d : Int) + 1 - k).toNat
decreasing_by all_goals omega

/-- Where the shortest edit scripts from both ends meet, if they do within `rounds` edits. -/
def meeting? (a b : Array α) (offset : Nat) (forward backward : Frontier) (d : Nat) :
    Nat → Option (Int × Int)
  | 0 => none
  | rounds + 1 =>
    let delta : Int := (a.size : Int) - b.size
    let odd := decide (delta % 2 ≠ 0)
    let other (f : Frontier) (k : Int) : Option Int :=
      let i := (offset : Int) + delta - k
      if 0 ≤ i ∧ i < f.reach.size then
        let reach := f.reach.getD i.toNat (-1)
        if reach = -1 then none else some reach
      else none
    let meetsBackward (k x y : Int) : Option (Int × Int) := do
      guard odd
      let x₂ ← other backward k
      guard ((a.size : Int) - x₂ ≤ x)
      some (x, y)
    match sweep a b offset d meetsBackward (-(d : Int) + forward.low) forward with
    | .inr place => some place
    | .inl forward =>
      let meetsForward (k x _y : Int) : Option (Int × Int) := do
        guard (!odd)
        let x₁ ← other forward k
        guard ((a.size : Int) - x ≤ x₁)
        some (x₁, x₁ - (delta - k))
      match sweep a.reverse b.reverse offset d meetsForward (-(d : Int) + backward.low) backward with
      | .inr place => some place
      | .inl backward => meeting? a b offset forward backward (d + 1) rounds

/-- The offsets in both texts at which to compare their parts separately. -/
def bisect? (a b : List α) : Option (Nat × Nat) :=
  let rounds := (a.length + b.length + 1) / 2
  let start : Frontier := ⟨(Array.replicate (2 * rounds) (-1)).setIfInBounds (rounds + 1) 0, 0, 0⟩
  (meeting? a.toArray b.toArray rounds start start 0 rounds).map fun (x, y) => (x.toNat, y.toNat)

/-- How to compare two texts that differ at both ends: by chunks at once, or by parts. -/
inductive Step (α : Type) where
  | chunks (chunks : List (Chunk α))
  | parts (firstHead secondHead common firstTail secondTail : List α)

def compareStep (a b : List α) : Step α :=
  if a.isEmpty then .chunks [⟨.added, b⟩]
  else if b.isEmpty then .chunks [⟨.removed, a⟩]
  else
    let (long, short, side) : List α × List α × Side :=
      if b.length < a.length then (a, b, .removed) else (b, a, .added)
    match occurrences short 0 long with
    | i :: _ => .chunks [⟨side, long.take i⟩, ⟨.both, short⟩, ⟨side, long.drop (i + short.length)⟩]
    | [] =>
      if short.length = 1 then .chunks [⟨.removed, a⟩, ⟨.added, b⟩]
      else match halfMatch? a b with
        | some m => .parts m.firstHead m.secondHead m.common m.firstTail m.secondTail
        | none =>
          match bisect? a b with
          | some (x, y) => .parts (a.take x) (b.take y) [] (a.drop x) (b.drop y)
          | none => .chunks [⟨.removed, a⟩, ⟨.added, b⟩]

/-- Compare two texts item by item. -/
def compare (a b : List α) : List (Chunk α) :=
  if a = b then (if a.isEmpty then [] else [⟨.both, a⟩])
  else
    let head := commonHead a b
    let a₁ := a.drop head
    let b₁ := b.drop head
    let tail := commonTail a₁ b₁
    let a₂ := a₁.take (a₁.length - tail)
    let b₂ := b₁.take (b₁.length - tail)
    let middle : List (Chunk α) := match compareStep a₂ b₂ with
      | .chunks chunks => chunks
      | .parts a₃ b₃ common a₄ b₄ =>
        if a₃.length + b₃.length < a.length + b.length ∧ a₄.length + b₄.length < a.length + b.length then
          compare a₃ b₃ ++ (if common.isEmpty then [] else [⟨.both, common⟩]) ++ compare a₄ b₄
        else [⟨.removed, a₂⟩, ⟨.added, b₂⟩]
    let front : List (Chunk α) := if head = 0 then [] else [⟨.both, a.take head⟩]
    let back : List (Chunk α) := if tail = 0 then [] else [⟨.both, a₁.drop (a₁.length - tail)⟩]
    normalize (front ++ middle ++ back)
termination_by a.length + b.length
decreasing_by
  · rename_i h; exact h.1
  · rename_i h; exact h.2

end Codemod.Patch
