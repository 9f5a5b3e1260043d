import Codemod.Fault

namespace Codemod.Log

inductive Level where
  | debug
  | info
  | warn
  | error
  deriving DecidableEq, Repr

/-- One message with its named details. -/
structure Record where
  level : Level
  message : Bytes
  fields : List (Bytes × Bytes)
  deriving DecidableEq, Repr

end Codemod.Log
