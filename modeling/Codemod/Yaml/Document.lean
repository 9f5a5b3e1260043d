import Codemod.Yaml.Node
import Codemod.Yaml.Tokens

namespace Codemod.Yaml

/-- What is known in the middle of a document. -/
structure Progress where
  tokens : Tokens
  /-- The handles of tags and what they stand for. -/
  handles : List (String × String)
  /-- The anchors in their order; the value of one that is not complete is missing. -/
  anchors : List (String × Option Node)

/-- Reading a document token by token. -/
abbrev Reading := StateT Progress (Except Problem)

/-- The next token, which stays. -/
def peek : Reading Token := do
  let p ← get
  let (token, tokens) ← p.tokens.peek
  set { p with tokens }
  return token

/-- Move past the next token. -/
def advance : Reading Unit := modify fun p => { p with tokens := p.tokens.drop }

/-- The value that a reference names: the latest with this anchor. -/
def reference (name : String) : Reading Node := do
  match (← get).anchors.reverse.lookup name with
  | some target => return .alias name target
  | none => throw (.unknownAnchor name)

def standardTags : String := "tag:yaml.org,2002:"

/-- A tag of the standard in its short form. A lone exclamation mark is no tag. -/
def shortTag? (tag : String) : Option String :=
  if tag = "!" then none
  else if tag.startsWith standardTags then
    some ("!!" ++ String.ofList (tag.toList.drop standardTags.length))
  else some tag

/-- The tag that a handle and the rest of its name stand for. -/
def fullTag (handle suffix : String) : Reading String := do
  if handle.isEmpty then return suffix
  match (← get).handles.lookup handle with
  | some meaning => return meaning ++ suffix
  | none => throw .unknownHandle

/-- What stands in front of a value: its anchor and its tag. -/
structure Properties where
  anchor : Option String
  tag : Option String

def anchorHere : Reading (Option String) := do
  match ← peek with
  | .anchor name => advance; return some name
  | _ => return none

def tagHere : Reading (Option String) := do
  match ← peek with
  | .tag handle suffix => advance; return some (← fullTag handle suffix)
  | _ => return none

/-- One anchor and one tag in either order. -/
def properties : Reading Properties := do
  match ← anchorHere with
  | some name => return ⟨some name, ← tagHere⟩
  | none =>
    match ← tagHere with
    | some tag => return ⟨← anchorHere, some tag⟩
    | none => return ⟨none, none⟩

/-- Read a value under an anchor. References in it to the same anchor find it incomplete. -/
def anchoring (anchor : Option String) (read : Reading Node) : Reading Node := do
  match anchor with
  | none => read
  | some name =>
    let place := (← get).anchors.length
    modify fun p => { p with anchors := p.anchors ++ [(name, none)] }
    let node ← read
    modify fun p => { p with anchors := p.anchors.set place (name, some node) }
    return node

/-- The next token is none of these: a value stands here. -/
def valueUnless (ends : List Token) (read : Reading Node) : Reading Node := do
  if ends.contains (← peek) then return .null else read

/-- What follows a colon, if there is one. -/
def afterColon (ends : List Token) (read : Reading Node) : Reading Node := do
  match ← peek with
  | .value => advance; valueUnless ends read
  | _ => return .null

/-- Move to the next item inside brackets, if there is one. -/
def nextInFlow (first : Bool) (closing : Token) (separator : String) : Reading Bool := do
  if (← peek) = closing then return false
  if !first then
    if (← peek) = .flowEntry then advance else throw (.expected separator)
  return (← peek) ≠ closing

mutual

/-- A value. Blocks cannot stand inside brackets, and a list can stand at the column of its key. -/
def node : Nat → Bool → Bool → Reading Node
  | 0, _, _ => throw .tooDeep
  | n + 1, block, atKey => do
    match ← peek with
    | .alias name => advance; reference name
    | _ =>
      let properties ← properties
      anchoring properties.anchor (content n block atKey properties)

/-- A value after its properties. -/
def content : Nat → Bool → Bool → Properties → Reading Node
  | 0, _, _, _ => throw .tooDeep
  | n + 1, block, atKey, properties => do
    let tag := properties.tag.bind shortTag?
    match ← peek, block with
    | .scalar form text, _ => advance; return .scalar tag form text
    | .flowSequenceStart, _ => advance; flowItems n true []
    | .flowMappingStart, _ => advance; flowEntries n true []
    | .blockSequenceStart, true => advance; blockItems n []
    | .blockMappingStart, true => advance; blockEntries n []
    | .blockEntry, _ =>
      if atKey then itemsAtKey n []
      else if properties.anchor.isSome || properties.tag.isSome then return .scalar tag .plain ""
      else throw .noContent
    | _, _ =>
      if properties.anchor.isSome || properties.tag.isSome then return .scalar tag .plain ""
      else throw .noContent

/-- The items of a list. -/
def blockItems : Nat → List Node → Reading Node
  | 0, _ => throw .tooDeep
  | n + 1, items => do
    match ← peek with
    | .blockEntry =>
      advance
      let item ← valueUnless [.blockEntry, .blockEnd] (node n true false)
      blockItems n (items ++ [item])
    | .blockEnd => advance; return .sequence items
    | _ => throw (.expected "'-' indicator")

/-- The items of a list at the column of its key. -/
def itemsAtKey : Nat → List Node → Reading Node
  | 0, _ => throw .tooDeep
  | n + 1, items => do
    match ← peek with
    | .blockEntry =>
      advance
      let item ← valueUnless [.blockEntry, .key, .value, .blockEnd] (node n true false)
      itemsAtKey n (items ++ [item])
    | _ => return .sequence items

/-- The entries of a mapping. -/
def blockEntries : Nat → List (Node × Node) → Reading Node
  | 0, _ => throw .tooDeep
  | n + 1, entries => do
    match ← peek with
    | .key =>
      advance
      let ends := [.key, .value, .blockEnd]
      let key ← valueUnless ends (node n true true)
      let value ← afterColon ends (node n true true)
      blockEntries n (entries ++ [(key, value)])
    | .blockEnd => advance; return .mapping entries
    | _ => throw (.expected "key")

/-- The items of a bracketed list. -/
def flowItems : Nat → Bool → List Node → Reading Node
  | 0, _, _ => throw .tooDeep
  | n + 1, first, items => do
    let open? ← nextInFlow first .flowSequenceEnd "',' or ']'"
    if !open? then
      advance
      return .sequence items
    let item ← match ← peek with
      | .key => advance; flowPair n
      | _ => node n false false
    flowItems n false (items ++ [item])

/-- An item of a bracketed list that is a single entry. A missing key takes the token behind it
along. -/
def flowPair : Nat → Reading Node
  | 0 => throw .tooDeep
  | n + 1 => do
    let ends := [.flowEntry, .flowSequenceEnd]
    let key ← if (Token.value :: ends).contains (← peek) then do advance; pure .null else node n false false
    let value ← afterColon ends (node n false false)
    return .mapping [(key, value)]

/-- The entries of a bracketed mapping. -/
def flowEntries : Nat → Bool → List (Node × Node) → Reading Node
  | 0, _, _ => throw .tooDeep
  | n + 1, first, entries => do
    let open? ← nextInFlow first .flowMappingEnd "',' or closing brace"
    if !open? then
      advance
      return .mapping entries
    let ends := [.flowEntry, .flowMappingEnd]
    let entry ← match ← peek with
      | .key => do
        advance
        let key ← valueUnless (.value :: ends) (node n false false)
        pure (key, ← afterColon ends (node n false false))
      | _ => do
        let key ← node n false false
        let _ ← peek
        pure (key, .null)
    flowEntries n false (entries ++ [entry])

end

/-- The directives in front of a document. Each may stand once. -/
def directives (versioned : Bool) : Nat → Reading Unit
  | 0 => throw .tooDeep
  | n + 1 => do
    match ← peek with
    | .version major minor =>
      if versioned then throw .repeatedDirective
      if major ≠ 1 || minor ≠ 1 then throw .badVersion
      advance
      directives true n
    | .handle name meaning =>
      if (← get).handles.any (·.1 = name) then throw .repeatedDirective
      modify fun p => { p with handles := p.handles ++ [(name, meaning)] }
      advance
      directives versioned n
    | _ => return

/-- The token stands between documents. -/
def isOutside : Token → Bool
  | .version .. | .handle .. | .documentStart | .documentEnd | .streamEnd => true
  | _ => false

/-- The first document. Of what follows it only the next tokens are looked at. -/
def document (fuel : Nat) : Reading Node := do
  let token ← peek
  if token = .streamEnd then throw .noDocument
  let marked := isOutside token && token ≠ .documentEnd
  if marked then
    directives false fuel
    if (← peek) ≠ .documentStart then throw (.expected "<document start>")
    advance
  modify fun p => { p with handles := p.handles ++ [("!", "!"), ("!!", standardTags)] }
  let root ← if marked && isOutside (← peek) then pure .null else node fuel true false
  let _ ← peek
  return root

/-- The first document of a file. A file without a document is an error. -/
def read (content : Bytes) : Except Problem Node :=
  let source := Source.ofBytes content
  (document (16 * source.rest.length + 64)).run' ⟨.ofSource source, [], []⟩

end Codemod.Yaml
