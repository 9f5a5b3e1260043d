import Codemod.Text.Utf8

namespace Codemod.Text

/-- White space of Unicode. -/
def isBlank (c : Char) : Bool :=
  let n := c.toNat
  (9 ≤ n && n ≤ 13) || n == 32 || n == 0x85 || n == 0xa0 || n == 0x1680 ||
    (0x2000 ≤ n && n ≤ 0x200a) || n == 0x2028 || n == 0x2029 || n == 0x202f || n == 0x205f ||
    n == 0x3000

def trimChars (s : List Char) : List Char :=
  ((s.dropWhile isBlank).reverse.dropWhile isBlank).reverse

/-- A string without white space at its ends. -/
def trim (s : String) : String := String.ofList (trimChars s.toList)

private def isBlankScalar : UInt8 ⊕ Char → Bool
  | .inl _ => false
  | .inr c => isBlank c

private def encodeScalar : UInt8 ⊕ Char → Bytes
  | .inl b => [b]
  | .inr c => String.utf8EncodeChar c

/-- A text without white space at its ends. -/
def trimBytes (s : Bytes) : Bytes :=
  let front := (scalars s).dropWhile isBlankScalar
  ((front.reverse.dropWhile isBlankScalar).reverse).flatMap encodeScalar

/-- The words between white space. -/
def words (s : String) : List String :=
  ((s.toList.splitBy fun a b => isBlank a == isBlank b).filter fun w => !w.all isBlank).map String.ofList

end Codemod.Text
