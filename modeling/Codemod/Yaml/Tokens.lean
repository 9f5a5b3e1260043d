import Codemod.Yaml.Block
import Codemod.Yaml.Encoding
import Codemod.Yaml.Property

namespace Codemod.Yaml

/-- A token that turns out to begin a key if a colon follows in time. -/
structure Candidate where
  /-- The number of the token. -/
  number : Nat
  /-- It stands where only a key can stand. -/
  required : Bool
  index : Nat
  line : Nat
  column : Nat

/-- A key ends on its line and within 1024 characters. -/
def Candidate.expired (c : Candidate) (s : Source) : Bool := c.line < s.line || c.index + 1024 < s.index

/-- The tokens of a document, of which a few are read ahead. -/
structure Tokens where
  source : Source
  /-- The column of the innermost block, or -1 outside of all blocks. -/
  indent : Int
  /-- The columns around it, innermost first. -/
  outer : List Int
  /-- What may become a key inside the innermost brackets. -/
  candidate : Option Candidate
  /-- The same for what lies around them; empty outside of all brackets. -/
  enclosing : List (Option Candidate)
  /-- A key may begin at the next token. -/
  keyAllowed : Bool
  queue : List Token
  /-- The number of tokens that have left the queue. -/
  taken : Nat

namespace Tokens

def ofSource (source : Source) : Tokens := ⟨source, -1, [], none, [], true, [], 0⟩

def inFlow (t : Tokens) : Bool := !t.enclosing.isEmpty

def add (t : Tokens) (token : Token) : Tokens := { t with queue := t.queue ++ [token] }

/-- Put a token in front of the one with a number. -/
def insertAt (t : Tokens) (number : Nat) (token : Token) : Tokens :=
  { t with queue := t.queue.insertIdx (number - t.taken) token }

/-- Give up what could have become a key. -/
def dropCandidate (t : Tokens) : Except Problem Tokens :=
  if t.candidate.any Candidate.required then .error .missingColon else .ok { t with candidate := none }

/-- The next token may become a key, if one is allowed here. -/
def addCandidate (t : Tokens) : Except Problem Tokens := do
  if !t.keyAllowed then return t
  let t ← t.dropCandidate
  let s := t.source
  let required := !t.inFlow && t.indent == s.column
  return { t with candidate := some ⟨t.taken + t.queue.length, required, s.index, s.line, s.column⟩ }

/-- Begin a block in a column further in, in front of the token with a number or at the end. -/
def openBlock (t : Tokens) (column : Nat) (number : Option Nat) (token : Token) : Tokens :=
  if t.inFlow || (column : Int) ≤ t.indent then t
  else
    let t := { t with indent := column, outer := t.indent :: t.outer }
    match number with
    | some n => t.insertAt n token
    | none => t.add token

/-- The columns of the blocks that are left when those further in than `column` end, and how many
those are. -/
def leaveBlocks (column indent : Int) : List Int → Int × List Int × Nat
  | [] => (indent, [], 0)
  | around :: outer =>
    if column < indent then
      let (indent, outer, ended) := leaveBlocks column around outer
      (indent, outer, ended + 1)
    else (indent, around :: outer, 0)

/-- End the blocks that lie further in than a column. -/
def closeBlocks (t : Tokens) (column : Int) : Tokens :=
  if t.inFlow then t
  else
    let (indent, outer, ended) := leaveBlocks column t.indent t.outer
    { t with indent, outer, queue := t.queue ++ List.replicate ended .blockEnd }

/-- A token of one character or more that stands for itself. -/
def mark (t : Tokens) (width : Nat) (token : Token) : Tokens :=
  { t with source := t.source.skip width }.add token

/-- A separator of documents or the end, which ends all blocks. -/
def endBlocks (t : Tokens) : Except Problem Tokens := do
  let t ← (t.closeBlocks (-1)).dropCandidate
  return { t with keyAllowed := false }

def fetchEnd (t : Tokens) : Except Problem Tokens := do
  let s := t.source
  let closed := if s.column = 0 then s else { s with line := s.line + 1, column := 0 }
  return (← { t with source := closed }.endBlocks).add .streamEnd

def fetchDirective (t : Tokens) : Except Problem Tokens := do
  let t ← t.endBlocks
  let (token, source) ← directiveToken t.source.next
  return { t with source }.add token

def openFlow (t : Tokens) (token : Token) : Except Problem Tokens := do
  let t ← t.addCandidate
  return { t with candidate := none, enclosing := t.candidate :: t.enclosing, keyAllowed := true }.mark 1 token

def closeFlow (t : Tokens) (token : Token) : Except Problem Tokens := do
  let t ← t.dropCandidate
  let t := match t.enclosing with
    | candidate :: enclosing => { t with candidate, enclosing }
    | [] => t
  return { t with keyAllowed := false }.mark 1 token

def fetchFlowEntry (t : Tokens) : Except Problem Tokens := do
  return { ← t.dropCandidate with keyAllowed := true }.mark 1 .flowEntry

def fetchBlockEntry (t : Tokens) : Except Problem Tokens := do
  if !t.inFlow && !t.keyAllowed then throw .misplacedEntry
  let t ← (t.openBlock t.source.column none .blockSequenceStart).dropCandidate
  return { t with keyAllowed := true }.mark 1 .blockEntry

def fetchKey (t : Tokens) : Except Problem Tokens := do
  if !t.inFlow && !t.keyAllowed then throw .misplacedKey
  let t ← (t.openBlock t.source.column none .blockMappingStart).dropCandidate
  return { t with keyAllowed := !t.inFlow }.mark 1 .key

/-- A colon. It turns what stands before it into a key, or separates a key that was marked. -/
def fetchValue (t : Tokens) : Except Problem Tokens := do
  match t.candidate with
  | some c =>
    if !c.expired t.source then
      let t := (t.insertAt c.number .key).openBlock c.column (some c.number) .blockMappingStart
      return { t with candidate := none, keyAllowed := false }.mark 1 .value
    if c.required then throw .missingColon
  | none => pure ()
  if !t.inFlow && !t.keyAllowed then throw .misplacedValue
  let t := { t with candidate := none }.openBlock t.source.column none .blockMappingStart
  return { t with keyAllowed := !t.inFlow }.mark 1 .value

/-- A token that can begin a key and after which none can begin. -/
def fetchLeaf (t : Tokens) (scan : Source → Except Problem (Token × Source)) : Except Problem Tokens := do
  let t ← t.addCandidate
  let (token, source) ← scan t.source
  return { t with source, keyAllowed := false }.add token

def fetchQuoted (t : Tokens) (scan : List Char → Source → Nat → Except Problem (List Char × Source)) :
    Except Problem Tokens :=
  t.fetchLeaf fun s => do
    let (text, next) ← scan [] s.next s.rest.length
    return (.scalar .quoted (String.ofList text), next)

def fetchBlockScalar (t : Tokens) (folded : Bool) : Except Problem Tokens := do
  let t ← t.dropCandidate
  let (text, source) ← blockText folded t.indent t.source.next
  return { t with source, keyAllowed := true }.add (.scalar .quoted (String.ofList text))

def fetchPlain (t : Tokens) : Except Problem Tokens := do
  let t ← t.addCandidate
  let s := t.source
  let (text, gap, source) ← plainText t.inFlow (t.indent + 1).toNat [] .empty s s.rest.length
  return { t with source, keyAllowed := gap.crosses }.add (.scalar .plain (String.ofList text))

/-- Characters with a meaning of their own at the start of a token. -/
def isIndicator (c : Char) : Bool :=
  [',', '[', ']', '\x7b', '\x7d', '#', '&', '*', '!', '|', '>', '\'', '"', '%', '@', '\x60'].contains c

/-- Read a token that begins with `c`. -/
def fetchAt (t : Tokens) (c : Char) (rest : List Char) : Except Problem Tokens :=
  let alone := t.inFlow || endsToken rest
  if c == '[' then t.openFlow .flowSequenceStart
  else if c == '\x7b' then t.openFlow .flowMappingStart
  else if c == ']' then t.closeFlow .flowSequenceEnd
  else if c == '\x7d' then t.closeFlow .flowMappingEnd
  else if c == ',' then t.fetchFlowEntry
  else if c == '-' && endsToken rest then t.fetchBlockEntry
  else if c == '?' && alone then t.fetchKey
  else if c == ':' && alone then t.fetchValue
  else if c == '*' then
    t.fetchLeaf fun s => (anchorName s.next).map fun (name, next) => (.alias name, next)
  else if c == '&' then
    t.fetchLeaf fun s => (anchorName s.next).map fun (name, next) => (.anchor name, next)
  else if c == '!' then t.fetchLeaf tagToken
  else if c == '|' && !t.inFlow then t.fetchBlockScalar false
  else if c == '>' && !t.inFlow then t.fetchBlockScalar true
  else if c == '\'' then t.fetchQuoted singleQuoted
  else if c == '"' then t.fetchQuoted doubleQuoted
  else if isIndicator c || isBlank c then .error .strangeCharacter
  else t.fetchPlain

/-- What was read between two places ends with a line break, blanks aside. -/
def endsLine (before after : Source) : Bool :=
  let consumed := before.rest.take (before.rest.length - after.rest.length)
  (consumed.reverse.dropWhile isBlank).head?.any isBreak

/-- Read one more token. A comment may follow it on its last line, except after a dash. -/
def fetch (t : Tokens) : Except Problem Tokens := do
  let (source, keyAllowed) := t.source.toToken t.inFlow t.keyAllowed (t.source.rest.length + 1)
  let t := { t with source, keyAllowed }.closeBlocks source.column
  if source.obscured 4 then throw .unreadable
  match source.rest with
  | [] => t.fetchEnd
  | c :: rest =>
    let t ← if c == '%' && source.column == 0 then t.fetchDirective
      else if source.atMarker then
        pure ((← t.endBlocks).mark 3 (if c == '-' then .documentStart else .documentEnd))
      else do
        let after ← t.fetchAt c rest
        pure (if !endsLine source after.source && after.queue.getLast? != some .blockEntry then
          { after with source := after.source.skipLineComment } else after)
    if t.source.obscured 1 then throw .unreadable
    return t

/-- The token at the head may still become a key. -/
def undecided (t : Tokens) : Except Problem Bool :=
  match (t.candidate :: t.enclosing).findSome? fun c => c.filter (·.number == t.taken) with
  | none => .ok false
  | some c =>
    if !c.expired t.source then .ok true
    else if c.required then .error .missingColon
    else .ok false

/-- Read until three tokens wait and the first of them is decided. -/
def ready (t : Tokens) : Nat → Except Problem Tokens
  | 0 => .ok t
  | n + 1 => do
    let enough ← if t.queue.length < 3 then pure false else (! ·) <$> t.undecided
    if enough then return t else (← t.fetch).ready n

/-- The next token. -/
def peek (t : Tokens) : Except Problem (Token × Tokens) := do
  let t ← t.ready (t.source.rest.length + 4)
  return (t.queue.headD .streamEnd, t)

def drop (t : Tokens) : Tokens := { t with queue := t.queue.tail, taken := t.taken + 1 }

end Tokens

end Codemod.Yaml
