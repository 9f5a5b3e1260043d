import Codemod.Text.Printable
import Codemod.Text.Utf8

namespace Codemod.Text

def hexDigit (n : Nat) : UInt8 := if n < 10 then (48 + n).toUInt8 else (87 + n).toUInt8

/-- Lower-case hexadecimal with a fixed number of digits. -/
def hex : Nat → Nat → Bytes
  | 0, _ => []
  | width + 1, n => hex width (n / 16) ++ [hexDigit (n % 16)]

/-- The escapes of control characters that have a letter of their own. -/
def controlLetters : List (Nat × String) :=
  [(7, "\\a"), (8, "\\b"), (9, "\\t"), (10, "\\n"), (11, "\\v"), (12, "\\f"), (13, "\\r")]

/-- The escape of a code point that does not show. Those for which `short` holds get two digits. -/
def escapeHidden (short : Nat → Bool) (n : Nat) : Bytes :=
  match controlLetters.lookup n with
  | some letter => bytes letter
  | none =>
    if short n then "\\x" ++ hex 2 n
    else if n < 0x10000 then "\\u" ++ hex 4 n
    else "\\U" ++ hex 8 n

/-- A character as it stands between double quotes. -/
def quoteChar (c : Char) : Bytes :=
  if c = '"' || c = '\\' then "\\" ++ String.utf8EncodeChar c
  else if isPrintable c then String.utf8EncodeChar c
  else escapeHidden (fun n => n < 32 || n = 127) c.toNat

/-- A character in single quotes. -/
def quoteSingle (c : Char) : Bytes :=
  .concat ["'", if c = '\'' then "\\'" else if c = '"' then "\"" else quoteChar c, "'"]

/-- A text in double quotes on one line, with escapes for what does not show. -/
def quote (s : Bytes) : Bytes := .concat
  ["\"", (scalars s).flatMap fun x => x.elim (fun b => "\\x" ++ hex 2 b.toNat) quoteChar, "\""]

end Codemod.Text
