import Codemod.Text.Bytes
import Codemod.Text.Quoted

namespace Codemod.Json

/-- A JSON value. A number is kept as it is written. -/
inductive Value where
  | null
  | bool (b : Bool)
  | number (digits : Bytes)
  | string (s : Bytes)
  | array (items : List Value)
  | object (entries : List (Bytes × Value))

def Value.ofInt (n : Int) : Value := .number (Bytes.ofInt n)

def Value.ofNat (n : Nat) : Value := .number (Bytes.ofNat n)

private def shortEscapes : List (Nat × String) :=
  [(34, "\\\""), (92, "\\\\"), (8, "\\b"), (12, "\\f"), (10, "\\n"), (13, "\\r"), (9, "\\t")]

/-- A character inside a string. What a page or a script could take for markup is escaped. -/
def writeChar (c : Char) : Bytes :=
  let n := c.toNat
  match shortEscapes.lookup n with
  | some escape => bytes escape
  | none =>
    if n < 32 || c == '<' || c == '>' || c == '&' || n == 0x2028 || n == 0x2029 then
      .concat ["\\u", Text.hex 4 n]
    else String.utf8EncodeChar c

def writeString (s : Bytes) : Bytes := .concat
  ["\"", (Text.scalars s).flatMap fun x => x.elim (fun _ => bytes "\\ufffd") writeChar, "\""]

/-- Where lines break: nowhere, or before each item, indented by its depth. -/
def lineBreak : Option Nat → Bytes
  | none => []
  | some depth => 10 :: List.replicate (2 * depth) 32

mutual

/-- A value at a depth, or all on one line. -/
def writeAt (depth : Option Nat) : Value → Bytes
  | .null => "null"
  | .bool b => if b then "true" else "false"
  | .number digits => digits
  | .string s => writeString s
  | .array [] => "[]"
  | .array (item :: rest) => .concat
    ["[", writeItems (depth.map (· + 1)) false (item :: rest), lineBreak depth, "]"]
  | .object [] => "\x7b\x7d"
  | .object (entry :: rest) => .concat
    ["\x7b", writeEntries (depth.map (· + 1)) false (entry :: rest), lineBreak depth, "\x7d"]

/-- Items, each on its line; a comma stands in front of all but the first. -/
def writeItems (depth : Option Nat) (comma : Bool) : List Value → Bytes
  | [] => []
  | item :: rest => .concat
    [if comma then "," else [], lineBreak depth, writeAt depth item, writeItems depth true rest]

def writeEntries (depth : Option Nat) (comma : Bool) : List (Bytes × Value) → Bytes
  | [] => []
  | (key, value) :: rest => .concat
    [if comma then "," else [], lineBreak depth, writeString key, if depth.isSome then ": " else ":",
      writeAt depth value, writeEntries depth true rest]

end

/-- A document of one value, over lines or on one. -/
def write (compact : Bool) (value : Value) : Bytes :=
  writeAt (if compact then none else some 0) value ++ "\n"

end Codemod.Json
