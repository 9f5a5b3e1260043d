import Codemod.Text.Utf8
import Codemod.Text.Width

namespace Codemod.Text

/-- Where a terminal stands in a sequence of bytes. -/
inductive TerminalMode where
  /-- Characters are shown. -/
  | ground
  | escape
  | escapeTail
  /-- A control sequence with its parameters. -/
  | sequence
  | sequenceTail
  /-- The head of a device string. -/
  | device
  | deviceTail
  /-- A string that is not shown. -/
  | hidden
  /-- A command to the system, which a bell can end. -/
  | command
  deriving DecidableEq, Repr

namespace TerminalMode

/-- The mode after the byte that ends or goes on with an escape. -/
def afterEscape (b : Nat) : TerminalMode :=
  if b = 0x5b then sequence
  else if b = 0x5d then command
  else if b = 0x50 then device
  else if b = 0x58 || b = 0x5e || b = 0x5f then hidden
  else if b < 0x30 then escapeTail
  else ground

/-- The mode after a byte that belongs to a string. -/
def inString (m : TerminalMode) (b : Nat) : TerminalMode :=
  if b = 0x9c || (b = 7 && m = command) then ground else m

/-- The mode after a byte beyond ASCII that starts no character. -/
def afterHigh (b : Nat) : TerminalMode :=
  if b = 0x90 then device
  else if b = 0x98 || b = 0x9e || b = 0x9f then hidden
  else if b = 0x9b then sequence
  else if b = 0x9d then command
  else ground

def isString (m : TerminalMode) : Bool := m = hidden || m = command

/-- The mode after a byte. -/
def next (m : TerminalMode) (b : Nat) : TerminalMode :=
  if b = 0x1b then escape
  else if b = 0x18 || b = 0x1a then ground
  else if m.isString then m.inString b
  else if 0x80 ≤ b then afterHigh b
  else if b < 0x20 || b = 0x7f then m
  else match m with
    | escape => afterEscape b
    | escapeTail => if b < 0x30 then escapeTail else ground
    | sequence => if b < 0x30 then sequenceTail else if b < 0x40 then sequence else ground
    | sequenceTail => if b < 0x30 then sequenceTail else ground
    | device => if b < 0x30 then deviceTail else if b < 0x40 then device else hidden
    | deviceTail => if b < 0x30 then deviceTail else hidden
    | m => m

end TerminalMode

/-- The columns that a text takes on a terminal in a mode. Escapes take none. A first byte of a
character that is not complete takes one. -/
def columns (m : TerminalMode) : List (UInt8 ⊕ Char) → Nat
  | [] => 0
  | .inl b :: rest =>
    if !m.isString && 0xc2 ≤ b && b ≤ 0xf4 then 1 + columns .ground rest else columns (m.next b.toNat) rest
  | .inr c :: rest =>
    if c.toNat < 0x80 then
      (if m = .ground && 0x20 ≤ c.toNat && c.toNat < 0x7f then 1 else 0) + columns (m.next c.toNat) rest
    else if m.isString then
      columns ((String.utf8EncodeChar c).foldl (fun m b => if m.isString then m.inString b.toNat else m) m) rest
    else
      let following := (rest.takeWhile Sum.isRight).filterMap Sum.getRight?
      let cluster := firstCluster (c :: following)
      clusterWidth cluster + columns .ground (rest.drop (cluster.length - 1))
termination_by s => s.length

/-- The columns that a line takes. -/
def width (s : Bytes) : Nat := columns .ground (scalars s)

end Codemod.Text
