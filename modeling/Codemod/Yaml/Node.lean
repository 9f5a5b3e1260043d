import Codemod.Text.Base64
import Codemod.Text.Utf8
import Codemod.Yaml.Problem
import Codemod.Yaml.Scalar
import Codemod.Yaml.Token

namespace Codemod.Yaml

/-- A value of a document. A reference knows the value it names, unless it stands inside that value. -/
inductive Node where
  | scalar (tag : Option String) (form : ScalarForm) (text : String)
  | sequence (items : List Node)
  | mapping (entries : List (Node × Node))
  | alias (name : String) (target : Option Node)

def Node.null : Node := .scalar none .plain ""

/-- What a scalar stands for: nothing, a switch, a number or a date, or a text. -/
inductive Meaning where
  | null
  | switch (on : Bool)
  | figure
  | text (s : String)
  deriving DecidableEq, Repr

def Meaning.ofKind (kind : Kind) (text : String) : Meaning :=
  match kind with
  | .null => .null
  | .switch on => .switch on
  | .text => .text text
  | _ => .figure

/-- A tag admits what a text stands for. A whole number can stand for a decimal one. -/
def tagAdmits (tag : String) (kind : Kind) : Bool :=
  match tag, kind with
  | "!!null", .null => true
  | "!!bool", .switch _ => true
  | "!!int", .integer => true
  | "!!int", .large => true
  | "!!float", .decimal => true
  | "!!float", .integer => true
  | "!!timestamp", .time => true
  | _, _ => false

/-- Tags that say what a text has to stand for. -/
def kindTags : List String := ["!!null", "!!bool", "!!int", "!!float", "!!timestamp"]

/-- What a scalar stands for. A text is what its tag says it is; other tags than those of a kind
leave it as it is. -/
def meaningOf (tag : Option String) (form : ScalarForm) (text : String) : Except Problem Meaning :=
  match tag, form with
  | none, .plain => .ok (if text = "<<" then .text text else .ofKind (plainKind text) text)
  | none, .quoted => .ok (.text text)
  | some tag, _ =>
    if tag = "!!binary" then
      match Text.decode64? text.toList with
      | some content => .ok (.text (Text.lossy content))
      | none => .error .badBase64
    else if kindTags.contains tag then
      let kind := plainKind text
      if tagAdmits tag kind then .ok (.ofKind kind text) else .error (.mismatch text tag)
    else .ok (.text text)

/-- The key of an entry that includes other mappings. -/
def Node.isInclusion : Node → Bool
  | .scalar none form "<<" => form = .plain
  | .scalar (some tag) _ "<<" => tag = "!!merge"
  | _ => false

/-- Two keys of one mapping that are the same as they are written. -/
def Node.sameKey : Node → Node → Bool
  | .scalar _ _ a, .scalar _ _ b => a = b
  | .alias a _, .alias b _ => a = b
  | .sequence _, .sequence _ => true
  | .mapping _, .mapping _ => true
  | _, _ => false

/-- The word for a kind of value in complaints. -/
def Node.kindWord : Node → String
  | .scalar .. => "!!str"
  | .sequence _ => "!!seq"
  | .mapping _ => "!!map"
  | .alias .. => "alias"

end Codemod.Yaml
