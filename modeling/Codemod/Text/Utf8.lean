import Codemod.Text.Bytes

namespace Codemod.Text

/-- A continuation byte within bounds, as its six bits. -/
private def tailBits? (low high : UInt8) (b : UInt8) : Option Nat :=
  if low ≤ b && b ≤ high then some (b.toNat % 64) else none

/-- The character that a text starts with and the number of bytes after its first, or nothing
when the first byte starts no character. Only the shortest encoding of a code point counts. -/
def firstChar? : Bytes → Option (Char × Nat)
  | [] => none
  | a :: s =>
    if a < 0x80 then some (Char.ofNat a.toNat, 0)
    else if 0xC2 ≤ a && a ≤ 0xDF then do
      let b :: _ := s | none
      let x ← tailBits? 0x80 0xBF b
      some (Char.ofNat ((a.toNat % 32) * 64 + x), 1)
    else if 0xE0 ≤ a && a ≤ 0xEF then do
      let b :: c :: _ := s | none
      let x ← tailBits? (if a = 0xE0 then 0xA0 else 0x80) (if a = 0xED then 0x9F else 0xBF) b
      let y ← tailBits? 0x80 0xBF c
      some (Char.ofNat ((a.toNat % 16) * 4096 + x * 64 + y), 2)
    else if 0xF0 ≤ a && a ≤ 0xF4 then do
      let b :: c :: d :: _ := s | none
      let x ← tailBits? (if a = 0xF0 then 0x90 else 0x80) (if a = 0xF4 then 0x8F else 0xBF) b
      let y ← tailBits? 0x80 0xBF c
      let z ← tailBits? 0x80 0xBF d
      some (Char.ofNat ((a.toNat % 8) * 262144 + x * 4096 + y * 64 + z), 3)
    else none

/-- The characters of a text; a byte that belongs to none stands for itself. -/
def scalars (s : Bytes) : List (UInt8 ⊕ Char) :=
  match s with
  | [] => []
  | a :: r =>
    match firstChar? (a :: r) with
    | some (c, extra) => .inr c :: scalars (r.drop extra)
    | none => .inl a :: scalars r
termination_by s.length
decreasing_by
  · simp only [List.length_drop, List.length_cons]; omega
  · simp

/-- The string that a text encodes. -/
def decode? (s : Bytes) : Option String :=
  ((scalars s).mapM fun (x : UInt8 ⊕ Char) => x.getRight?).map String.ofList

/-- The string that a text encodes, with U+FFFD for every byte that belongs to no character. -/
def lossy (s : Bytes) : String :=
  String.ofList ((scalars s).map fun x => x.elim (fun _ => '\ufffd') id)

end Codemod.Text
