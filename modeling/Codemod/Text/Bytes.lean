namespace Codemod

/-- Text that need not be valid UTF-8: file contents, paths, names and messages. -/
abbrev Bytes := List UInt8

-- What holds of every byte of a text is decided along the text, and not for all 256 bytes.
attribute [instance (2000)] List.decidableBAll

/-- The UTF-8 encoding of a string. -/
def bytes (s : String) : Bytes := s.toList.flatMap String.utf8EncodeChar

/-- The bytes of a literal, by its characters: these are at hand for the kernel, while it searches a string for them
from the start each time. -/
theorem bytes_ofList (chars : List Char) : bytes (String.ofList chars) = chars.flatMap String.utf8EncodeChar :=
  congrArg (List.flatMap String.utf8EncodeChar) String.toList_ofList

instance stringToBytes : Coe String Bytes := ⟨bytes⟩

instance charToByte : Coe Char UInt8 := ⟨Char.toUInt8⟩

namespace Bytes

def isLetter (c : UInt8) : Bool := (97 ≤ c && c ≤ 122) || (65 ≤ c && c ≤ 90)

def isDigit (c : UInt8) : Bool := 48 ≤ c && c ≤ 57

/-- Letters and digits of ASCII and the underscore. -/
def isWord (c : UInt8) : Bool := isLetter c || isDigit c || c == '_'

def lowerLetter (c : UInt8) : UInt8 := if 65 ≤ c && c ≤ 90 then c + 32 else c

def startsWith (s head : Bytes) : Bool := head.isPrefixOf s

def endsWith (s tail : Bytes) : Bool := tail.isSuffixOf s

/-- `s` without `head` in front, or `s` itself when it does not start so. -/
def dropHead (s head : Bytes) : Bytes := if startsWith s head then s.drop head.length else s

/-- `s` without `tail` behind, or `s` itself when it does not end so. -/
def dropTail (s tail : Bytes) : Bytes :=
  if endsWith s tail then s.take (s.length - tail.length) else s

/-- The offset of the first occurrence of `part`. -/
def indexOf? (part : Bytes) : Bytes → Option Nat
  | [] => if part.isEmpty then some 0 else none
  | c :: s => if startsWith (c :: s) part then some 0 else (indexOf? part s).map (· + 1)

def contains (s part : Bytes) : Bool := (indexOf? part s).isSome

/-- The pieces between the separators; one more piece than there are separators. -/
def splitOn (sep : UInt8) : Bytes → List Bytes
  | [] => [[]]
  | c :: s =>
    if c = sep then [] :: splitOn sep s
    else match splitOn sep s with
      | [] => [[c]]
      | piece :: rest => (c :: piece) :: rest

/-- The parts one after another. -/
def concat (parts : List Bytes) : Bytes := parts.flatten

def join (sep : Bytes) (pieces : List Bytes) : Bytes := List.intercalate sep pieces

/-- The content between two offsets; empty when they cross or lie outside. -/
def slice (s : Bytes) (start stop : Nat) : Bytes := (s.take stop).drop start

/-- Bytewise lexicographic order. -/
def le : Bytes → Bytes → Bool
  | [], _ => true
  | _ :: _, [] => false
  | a :: s, b :: t => if a = b then le s t else a < b

/-- Ascending bytewise order; equal texts keep their order. -/
def sort (texts : List Bytes) : List Bytes := texts.mergeSort le

/-- Decimal digits, with a minus sign for negative numbers. -/
def ofInt (n : Int) : Bytes := bytes (toString n)

def ofNat (n : Nat) : Bytes := bytes (toString n)

end Bytes

end Codemod
