import Codemod.Yaml.Source

namespace Codemod.Yaml

/-- The characters of a text and the number of bytes of each; nothing stands for a character that
cannot be read. -/
abbrev Units := List (Option Char × Nat)

/-- Characters that may stand in a document. -/
def isAllowed (c : Char) : Bool :=
  let n := c.toNat
  n == 9 || n == 10 || n == 13 || (32 ≤ n && n ≤ 126) || n == 0x85 || (0xa0 ≤ n && n ≠ 0xfffe && n ≠ 0xffff)

def utf8Units (content : Bytes) : Units :=
  (Text.scalars content).map fun x => x.elim (fun _ => (none, 1)) fun c => (some c, c.utf8Size)

/-- Two bytes as one number. -/
private def wordOf (bigEndian : Bool) (a b : UInt8) : Nat :=
  if bigEndian then a.toNat * 256 + b.toNat else b.toNat * 256 + a.toNat

/-- Characters of two bytes, or of four where a surrogate leads. -/
def utf16Units (bigEndian : Bool) : Bytes → Units
  | [] => []
  | [_] => [(none, 1)]
  | a :: b :: rest =>
    let first := wordOf bigEndian a b
    if first / 0x400 = 0x37 then [(none, 2)]
    else if first / 0x400 = 0x36 then
      match rest with
      | c :: d :: rest =>
        let second := wordOf bigEndian c d
        if second / 0x400 = 0x37 then
          (some (Char.ofNat (0x10000 + first % 0x400 * 0x400 + second % 0x400)), 4) :: utf16Units bigEndian rest
        else [(none, 4)]
      | _ => [(none, 2)]
    else (some (Char.ofNat first), 2) :: utf16Units bigEndian rest

/-- The size of the blocks in which a text is read. -/
def blockSize : Nat := 512

/-- The characters of all blocks before the first one with a flaw, and whether there is one. The
characters of the block at hand come last first. -/
def wholeBlocks (room : Nat) (block : List Char) : Units → List Char × Bool
  | [] => (block.reverse, false)
  | (none, _) :: _ => (if room = 0 then block.reverse else [], true)
  | (some c, width) :: units =>
    if room < width then
      let (more, flawed) := wholeBlocks (blockSize - width) [c] units
      (block.reverse ++ more, flawed)
    else wholeBlocks (room - width) (c :: block) units

/-- One character for each of the common line ends. -/
def normalBreaks : List Char → List Char
  | [] => []
  | '\r' :: '\n' :: s => '\n' :: normalBreaks s
  | c :: s => (if c == '\r' || c == '\x85' then '\n' else c) :: normalBreaks s

/-- The text that a file holds. Its first bytes tell how it is encoded. -/
def Source.ofBytes (content : Bytes) : Source :=
  let (units, room) := match content with
    | 0xff :: 0xfe :: rest => (utf16Units false rest, blockSize - 2)
    | 0xfe :: 0xff :: rest => (utf16Units true rest, blockSize - 2)
    | 0xef :: 0xbb :: 0xbf :: rest => (utf8Units rest, blockSize - 3)
    | _ => (utf8Units content, blockSize)
  let (chars, flawed) := wholeBlocks room [] (units.map fun (c, width) => (c.filter isAllowed, width))
  ⟨normalBreaks chars, 0, 0, 0, chars.head? == some '\ufeff', flawed⟩

end Codemod.Yaml
