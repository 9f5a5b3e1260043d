namespace Codemod.Yaml

/-- How a scalar is written in a document. Only a plain one can stand for something else than its
text. -/
inductive ScalarForm where
  | plain
  | quoted
  deriving DecidableEq, Repr

/-- What a document is made of. -/
inductive Token where
  | streamEnd
  | version (major minor : Nat)
  /-- The handle of a tag and what it stands for. -/
  | handle (name meaning : String)
  | documentStart
  | documentEnd
  | blockSequenceStart
  | blockMappingStart
  | blockEnd
  | flowSequenceStart
  | flowSequenceEnd
  | flowMappingStart
  | flowMappingEnd
  | blockEntry
  | flowEntry
  | key
  | value
  | alias (name : String)
  | anchor (name : String)
  | tag (handle suffix : String)
  | scalar (form : ScalarForm) (text : String)
  deriving DecidableEq, Repr

end Codemod.Yaml
