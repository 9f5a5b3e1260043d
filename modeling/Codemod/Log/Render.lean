import Codemod.Log.Record
import Codemod.Text.Blank
import Codemod.Text.Lower
import Codemod.Text.Style

namespace Codemod.Log

namespace Level

/-- The level of a name in any case. A name that nobody knows means information. -/
def ofName (name : Bytes) : Level :=
  let name := Text.lower name
  if name = "debug" then debug
  else if name = "warn" || name = "warning" then warn
  else if name = "error" then error
  else info

def mark : Level → String
  | debug => "DEBU"
  | info => "INFO"
  | warn => "WARN"
  | error => "ERRO"

def weight : Level → Nat
  | debug => 0
  | info => 1
  | warn => 2
  | error => 3

end Level

/-- Who writes a log: from which level on, and under which name. -/
structure Logger where
  level : Level
  name : Bytes
  deriving DecidableEq, Repr

/-- Pair keys with values; a last key without one is told so. -/
def pairUp : List Bytes → List (Bytes × Bytes)
  | key :: value :: rest => (key, value) :: pairUp rest
  | [key] => [(key, "missing value")]
  | [] => []

/-- A value with this in it stands in quotes. -/
def callsForQuotes (x : UInt8 ⊕ Char) : Bool :=
  x.elim (fun _ => true) fun c =>
    c == '"' || c == '=' || c == '\ufffd' || Text.isBlank c || !(c == '\x7f' || Text.isPrintable c)

/-- A text with escapes for what does not show and, if asked, for quotes. -/
def escaped (quotes : Bool) (s : Bytes) : Bytes :=
  let shows (x : UInt8 ⊕ Char) : Bool := x.elim (fun _ => true) fun c => Text.isPrintable c && c != '"'
  if (Text.scalars s).all shows then s
  else (Text.scalars s).flatMap fun x =>
    let c := x.elim (fun _ => '\ufffd') id
    if quotes && c == '"' then "\\\""
    else if Text.isPrintable c then String.utf8EncodeChar c
    else Text.escapeHidden (fun n => n < 32) c.toNat

/-- The lines of a value, each behind a bar. Only if more follows does the last one end. -/
def barredLines (more : Bool) : List Bytes → Bytes
  | [] => []
  | [last] =>
    if last.isEmpty then [] else .concat ["  │ ", escaped false last, if more then "\n" else []]
  | line :: rest => .concat ["  │ ", escaped false line, "\n", barredLines more rest]

/-- A detail of a message. The names of the parts of a line are not details. -/
def detail (more : Bool) (key value : Bytes) : Bytes :=
  if key.isEmpty || key = "time" || key = "level" then []
  else if key = "msg" then " " ++ Text.expandTabs value
  else if key = "prefix" then " " ++ Text.evenLines id (value ++ ":")
  else if key = "caller" then " " ++ Text.evenLines id (.concat ["<", value, ">"])
  else
    let key := Text.evenLines id key
    if value.isEmpty then .concat [" ", key, "=\"\""]
    else if List.contains value 10 then .concat ["\n  ", key, "=\n", barredLines more (value.splitOn 10)]
    else if (Text.scalars value).any callsForQuotes then .concat [" ", key, "=\"", escaped true value, "\""]
    else .concat [" ", key, "=", value]

def details : List (Bytes × Bytes) → Bytes
  | [] => []
  | (key, value) :: rest => detail (!rest.isEmpty) key value ++ details rest

/-- A message as a line, or nothing if its level does not reach that of the log. -/
def Logger.render (l : Logger) (r : Record) : Bytes :=
  if r.level.weight < l.level.weight then []
  else .concat
    [r.level.mark, if l.name.isEmpty then [] else .concat [" ", l.name, ":"],
      if r.message.isEmpty then [] else " " ++ Text.expandTabs r.message, details r.fields, "\n"]

def Logger.renderAll (l : Logger) (records : List Record) : Bytes := records.flatMap l.render

end Codemod.Log
