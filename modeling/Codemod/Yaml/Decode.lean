import Codemod.Yaml.Node

namespace Codemod.Yaml

/-- Taking values from a document. Complaints about values that do not fit are collected. -/
abbrev Decoding := StateT (List Complaint) (Except Problem)

def complain (c : Complaint) : Decoding Unit := modify (· ++ [c])

/-- The value if nobody complained. -/
def Decoding.finish {α : Type} (d : Decoding α) : Except Problem α := do
  let (value, list) ← d.run []
  if list.isEmpty then return value else throw (.complaints list)

/-- A complaint about a value, in place of which there is none. -/
def Node.misfit {α : Type} (node : Node) (target : String) : Decoding (Option α) := do
  complain (.misfit node.kindWord target)
  return none

/-- The text of a scalar. A missing value has none. -/
def Node.text? : Node → Decoding (Option String)
  | .scalar tag form text => do
    match ← meaningOf tag form text with
    | .null => return none
    | .text s => return some s
    | _ => return some text
  | .alias _ (some target) => target.text?
  | .alias name none => throw (.containsItself name)
  | node => node.misfit "string"

/-- A switch. The old words for yes and no count in quotes as well. -/
def Node.switch? : Node → Decoding (Option Bool)
  | .scalar tag form text => do
    match ← meaningOf tag form text with
    | .null => return none
    | .switch on => return some on
    | .text s =>
      if yesWords.contains s then return some true
      else if noWords.contains s then return some false
      else (Node.scalar tag form text).misfit "bool"
    | .figure => (Node.scalar tag form text).misfit "bool"
  | .alias _ (some target) => target.switch?
  | .alias name none => throw (.containsItself name)
  | node => node.misfit "bool"

/-- Nothing for a missing value; other scalars are no collections. -/
def missing {α : Type} (tag : Option String) (form : ScalarForm) (text target : String) :
    Decoding (Option α) := do
  match ← meaningOf tag form text with
  | .null => return none
  | _ => (Node.scalar tag form text).misfit target

/-- A list of texts; missing ones are left out. -/
def Node.texts? : Node → Decoding (Option (List String))
  | .sequence items => do return some ((← items.mapM Node.text?).filterMap id)
  | .scalar tag form text => missing tag form text "list"
  | .alias _ (some target) => target.texts?
  | .alias name none => throw (.containsItself name)
  | node => node.misfit "list"

/-- Values by name. -/
abbrev Members := List (String × Node)

/-- The scalar stands for a text, not for a number or the like. -/
def Node.isText : Node → Bool
  | .scalar tag form text =>
    match meaningOf tag form text with
    | .ok (.text _) => true
    | _ => false
  | .alias _ (some target) => target.isText
  | _ => false

def hasRepeatedKey : List (Node × Node) → Bool
  | [] => false
  | (key, _) :: rest => rest.any (fun entry => key.sameKey entry.1) || hasRepeatedKey rest

/-- The entries of a mapping itself, with their keys. Keys without a name are left out. -/
def ownMembers (entries : List (Node × Node)) : Decoding (List (Node × String × Node)) := do
  let named ← (entries.filter fun entry => !entry.1.isInclusion).mapM fun (key, value) => do
    return (← key.text?).map fun name => (key, name, value)
  return named.filterMap id

/-- The members whose names are not among those seen. Gives the names seen then. -/
def unseen (seen : List String) : Members → Members × List String
  | [] => ([], seen)
  | (name, value) :: rest =>
    if seen.contains name then unseen seen rest
    else
      let (kept, seen) := unseen (name :: seen) rest
      ((name, value) :: kept, seen)

/-- The value is a mapping or a reference to one. -/
def Node.isMapping : Node → Bool
  | .mapping _ => true
  | .alias _ (some (.mapping _)) => true
  | .alias _ none => true
  | _ => false

mutual

/-- What a mapping contributes to one that includes it: members with names that were not seen
before, its own and then those that it includes itself. -/
def Node.contribution (seen : List String) : Node → Decoding (Members × List String)
  | .mapping entries => do
    if hasRepeatedKey entries then
      complain .repeatedKey
      return ([], seen)
    let (own, seen) := unseen seen ((← ownMembers entries).map (·.2))
    let (more, seen) ← contributionOfEntries seen entries
    return (own ++ more, seen)
  | .alias _ (some target) => do
    if !target.isMapping then throw .badInclusion
    target.contribution seen
  | .alias name none => throw (.containsItself name)
  | .sequence items => contributionOfItems seen items
  | .scalar .. => throw .badInclusion

/-- What the mappings of a list contribute, the first ones first. -/
def contributionOfItems (seen : List String) : List Node → Decoding (Members × List String)
  | [] => return ([], seen)
  | item :: rest => do
    if !item.isMapping then throw .badInclusion
    let (first, seen) ← item.contribution seen
    let (more, seen) ← contributionOfItems seen rest
    return (first ++ more, seen)

/-- What an entry of a mapping includes, if there is such an entry. -/
def contributionOfEntries (seen : List String) : List (Node × Node) → Decoding (Members × List String)
  | [] => return ([], seen)
  | (key, value) :: rest => do
    if key.isInclusion then value.contribution seen else contributionOfEntries seen rest

end

/-- What is included by an entry of a mapping: a mapping, or a list of mappings. -/
def includedMembers (seen : List String) (entries : List (Node × Node)) : Decoding Members :=
  return (← contributionOfEntries seen entries).1

/-- The members of a mapping: its own, then those that it includes. Own entries win over included
ones where their keys are texts, also the entry that includes them. -/
def Node.members? : Node → Decoding (Option Members)
  | .mapping entries => do
    if hasRepeatedKey entries then
      complain .repeatedKey
      return some []
    let own ← ownMembers entries
    let seen := "<<" :: (own.filter (·.1.isText)).map (·.2.1)
    return some (own.map (·.2) ++ (← includedMembers seen entries))
  | .scalar tag form text => missing tag form text "map"
  | .alias _ (some target) => target.members?
  | .alias name none => throw (.containsItself name)
  | node => node.misfit "map"

/-- Members of which each can stand once. -/
def Node.fields? (node : Node) : Decoding (Option Members) := do
  let members ← node.members?
  if members.any fun list => !((list.map (·.1)).eraseDups.length == list.length) then complain .repeatedField
  return members

end Codemod.Yaml
