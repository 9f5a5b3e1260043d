import Codemod.Markup.Span
import Codemod.Text.Quoted

namespace Codemod.Edit

/-- How a change is spliced in. Only the first two can be applied. -/
inductive Mode where
  | insert
  | replace
  | other (code : Int)
  deriving DecidableEq, Repr

def Mode.code : Mode → Int
  | insert => 0
  | replace => 1
  | other code => code

def Mode.ofCode (code : Int) : Mode :=
  if code = 0 then insert else if code = 1 then replace else other code

def Mode.name : Mode → Bytes
  | insert => "insert"
  | replace => "replace"
  | other code => .concat ["Mode(", .ofInt code, ")"]

/-- One positional edit of a content. A replacement names the text it expects to remove. -/
structure Change where
  position : Int
  text : Bytes
  remove : Bytes
  mode : Mode
  deriving DecidableEq, Repr

namespace Change

def insert (pos : Nat) (text : Bytes) : Change := ⟨pos, text, [], .insert⟩

def replace (pos : Nat) (remove text : Bytes) : Change := ⟨pos, text, remove, .replace⟩

def delete (pos : Nat) (remove : Bytes) : Change := replace pos remove []

/-- Replace what the content has at a range. -/
def replaceSpan (content : Bytes) (s : Markup.Span) (text : Bytes) : Change :=
  replace s.start (s.text content) text

def deleteSpan (content : Bytes) (s : Markup.Span) : Change := replaceSpan content s []

/-- The offset after the removed text. -/
def stop (c : Change) : Int := if c.mode = .replace then c.position + c.remove.length else c.position

/-- The end is too large to be added up in 64 bits with a sign. -/
def wraps (c : Change) : Bool := decide (c.position < 0x8000000000000000) && decide (0x8000000000000000 ≤ c.stop)

/-- The same offset as it is added up: a sum that does not fit into 64 bits wraps around. -/
def stop64 (c : Change) : Int := if c.wraps then c.stop.bmod 0x10000000000000000 else c.stop

def describe (c : Change) : Bytes :=
  if c.mode = .replace then
    .concat ["replace@", .ofInt c.position, " ", Text.quote c.remove, " -> ", Text.quote c.text]
  else .concat ["insert@", .ofInt c.position, " ", Text.quote c.text]

end Change

/-- Why a change does not fit a content. -/
inductive Misfit where
  | negative
  | unknownMode
  | beyond (stop : Int) (length : Nat)
  deriving DecidableEq, Repr

def Misfit.message : Misfit → Bytes
  | negative => "position is negative"
  | unknownMode => "unknown mode"
  | beyond stop length =>
    .concat ["end offset ", .ofInt stop, " exceeds content length ", .ofNat length]

structure InvalidChange where
  change : Change
  reason : Misfit
  deriving DecidableEq, Repr

def InvalidChange.message (e : InvalidChange) : Bytes :=
  .concat ["invalid change ", e.change.describe, ": ", e.reason.message]

/-- A replacement whose expected text is not there. -/
structure Conflict where
  path : Bytes
  change : Change
  found : Bytes
  deriving DecidableEq, Repr

def Conflict.message (e : Conflict) : Bytes := .concat
  [if e.path.isEmpty then [] else e.path ++ ": ", "edit conflict at offset ",
    .ofInt e.change.position, ": expected ", Text.quote e.change.remove, ", found ",
    Text.quote e.found]

/-- What is wrong with a change for a content of the given length. -/
def Change.misfit? (c : Change) (length : Nat) : Option Misfit :=
  if c.position < 0 then some .negative
  else if c.mode ≠ .insert ∧ c.mode ≠ .replace then some .unknownMode
  else if c.stop64 > length then some (.beyond c.stop64 length)
  else none

/-- The first change that does not fit. -/
def validate (changes : List Change) (length : Nat) : Except InvalidChange Unit :=
  match changes.findSome? fun c => (c.misfit? length).map (InvalidChange.mk c) with
  | some e => .error e
  | none => .ok ()

/-- Application goes from the back of the content to its front; at one position replacements
come before insertions. -/
def Change.before (a b : Change) : Bool :=
  b.position < a.position || (a.position == b.position && b.mode.code ≤ a.mode.code)

/-- The order of application. Among equals the change added last comes first, so that texts
inserted at one place stand in the order in which they were added. -/
def sortChanges (changes : List Change) : List Change := changes.reverse.mergeSort Change.before

/-- Why changes are not applied. A crash is the end of the program, not an answer. -/
inductive ApplyError where
  | invalid (e : InvalidChange)
  | conflict (e : Conflict)
  | crash (stop : Int)
  deriving DecidableEq, Repr

/-- Apply one change. A replacement must find the text that it removes. No buffer reaches as far as an end that
wraps around, and cutting a piece out of it at what is left of that end crashes. -/
def splice (buffer : Bytes) (c : Change) : Except ApplyError Bytes :=
  let pos := c.position.toNat
  let stop := c.stop.toNat
  if c.wraps ∧ buffer.length < c.stop then .error (.crash c.stop64)
  else if c.mode = .replace ∧ buffer.slice pos stop ≠ c.remove then
    .error (.conflict ⟨[], c, buffer.slice pos stop⟩)
  else .ok (buffer.take pos ++ (c.text ++ buffer.drop stop))

/-- The content after all changes, whose positions refer to the content as given. -/
def applyChanges (content : Bytes) (changes : List Change) : Except ApplyError Bytes := do
  (validate changes content.length).mapError .invalid
  (sortChanges changes).foldlM splice content

end Codemod.Edit
