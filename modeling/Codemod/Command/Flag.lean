import Codemod.Command.Basic
import Codemod.Fault
import Codemod.Settings.Environment
import Codemod.Text.CommaList

namespace Codemod.Command

/-- What a flag takes: nothing or a truth value, a text, or items that add up. -/
inductive FlagKind where
  | switch
  | text (standard : String)
  | list
  deriving DecidableEq, Repr

structure Flag where
  name : String
  letter : Option Char
  kind : FlagKind
  usage : String
  deriving DecidableEq, Repr

/-- What a flag was given. -/
inductive FlagValue where
  | switch (on : Bool)
  | text (s : Bytes)
  | list (items : List Bytes)
  deriving DecidableEq, Repr

namespace Flag

/-- The flag needs no value. -/
def standsAlone (f : Flag) : Bool := f.kind = .switch

/-- The ways to write a flag. -/
def spelling (f : Flag) : String :=
  match f.letter with
  | some letter => "-" ++ letter.toString ++ ", --" ++ f.name
  | none => "--" ++ f.name

def refuse (f : Flag) (value reason : Bytes) : Fault :=
  .plain (.concat ["invalid argument ", Text.quote value, " for ", Text.quote f.spelling, " flag: ", reason])

/-- Read the value of a flag. -/
def read (f : Flag) (value : Bytes) : Except Fault FlagValue :=
  match f.kind with
  | .text _ => .ok (.text value)
  | .switch =>
    match Settings.switchValue? (Text.lossy value) with
    | some on => .ok (.switch on)
    | none => .error (f.refuse value
      (.concat ["strconv.ParseBool: parsing ", Text.quote value, ": invalid syntax"]))
  | .list =>
    match Text.CommaList.read value with
    | .ok items => .ok (.list items)
    | .error e => .error (f.refuse value e.message)

end Flag

/-- The words behind a command: what its flags were given, in order, and the rest. -/
structure Arguments where
  values : List (String × FlagValue)
  operands : List Bytes
  deriving DecidableEq, Repr

namespace Arguments

def empty : Arguments := ⟨[], []⟩

/-- A switch is on if it was last turned on. -/
def isOn (a : Arguments) (name : String) : Bool :=
  match a.values.reverse.lookup name with
  | some (.switch on) => on
  | _ => false

def text? (a : Arguments) (name : String) : Option Bytes :=
  match a.values.reverse.lookup name with
  | some (.text s) => some s
  | _ => none

/-- All the items that a flag was given. -/
def items? (a : Arguments) (name : String) : Option (List Bytes) :=
  match a.values.filterMap fun (n, v) => if n = name then some v else none with
  | [] => none
  | values => some (values.flatMap fun | .list items => items | _ => [])

end Arguments

def longFlag? (flags : List Flag) (name : Bytes) : Option Flag := flags.find? fun f => bytes f.name = name

def letterFlag? (flags : List Flag) (letter : UInt8) : Option Flag :=
  flags.find? fun f => f.letter.any fun c => c.toUInt8 == letter

/-- Flags by their letters in one word, and whether the last took the word behind. A rest that
begins with `test.` is left to others. -/
def readLetters (flags : List Flag) (next : Option Bytes) :
    Bytes → Except Fault (List (String × FlagValue) × Bool)
  | [] => .ok ([], false)
  | letter :: rest =>
    let shown : Bytes := .concat [Text.quoteSingle (Char.ofNat letter.toNat), " in -", letter :: rest]
    if Bytes.startsWith (letter :: rest) "test." then .ok ([], false)
    else match letterFlag? flags letter with
    | none => .error (.plain ("unknown shorthand flag: " ++ shown))
    | some f =>
      if 2 ≤ rest.length && rest.head?.any (fun (b : UInt8) => b == '=') then
        (f.read (rest.drop 1)).map fun v => ([(f.name, v)], false)
      else if f.standsAlone then do
        let (more, taken) ← readLetters flags next rest
        return ((f.name, .switch true) :: more, taken)
      else if !rest.isEmpty then (f.read rest).map fun v => ([(f.name, v)], false)
      else match next with
        | some value => (f.read value).map fun v => ([(f.name, v)], true)
        | none => .error (.plain ("flag needs an argument: " ++ shown))

/-- A flag by its name, given without the two dashes, and whether it took the word behind. -/
def readLong (flags : List Flag) (next : Option Bytes) (word : Bytes) :
    Except Fault ((String × FlagValue) × Bool) :=
  let equals := Bytes.indexOf? "=" word
  let name := match equals with
    | some i => word.take i
    | none => word
  if name.isEmpty || name.startsWith "-" then .error (.plain ("bad flag syntax: --" ++ word))
  else match longFlag? flags name with
    | none => .error (.plain ("unknown flag: --" ++ name))
    | some f =>
      match equals with
      | some i => (f.read (word.drop (i + 1))).map fun v => ((f.name, v), false)
      | none =>
        if f.standsAlone then .ok ((f.name, .switch true), false)
        else match next with
          | some value => (f.read value).map fun v => ((f.name, v), true)
          | none => .error (.plain ("flag needs an argument: --" ++ name))

/-- Tell flags and operands apart. Two dashes end the flags; one dash is an operand. -/
def readArguments (flags : List Flag) (words : List Bytes) (a : Arguments) : Except Fault Arguments :=
  match words with
  | [] => .ok a
  | word :: rest =>
    if !word.startsWith "-" || word = "-" then
      readArguments flags rest { a with operands := a.operands ++ [word] }
    else if word = "--" then .ok { a with operands := a.operands ++ rest }
    else do
      let (values, taken) ← if word.startsWith "--" then
          (readLong flags rest.head? (word.drop 2)).map fun (v, taken) => ([v], taken)
        else readLetters flags rest.head? (word.drop 1)
      let a := { a with values := a.values ++ values }
      if taken then readArguments flags (rest.drop 1) a else readArguments flags rest a
termination_by words.length
decreasing_by all_goals grind

end Codemod.Command
