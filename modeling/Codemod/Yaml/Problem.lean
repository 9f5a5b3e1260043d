namespace Codemod.Yaml

/-- A value that does not fit where it stands. -/
inductive Complaint where
  | misfit (kind target : String)
  | unknownField (name : String)
  | repeatedKey
  | repeatedField
  deriving DecidableEq, Repr

def Complaint.message : Complaint → String
  | misfit kind target => "cannot unmarshal " ++ kind ++ " into " ++ target
  | unknownField name => "field " ++ name ++ " not found"
  | repeatedKey => "mapping key already defined"
  | repeatedField => "field already set"

/-- Why a document cannot be read. -/
inductive Problem where
  | unreadable
  | noDocument
  | tooDeep
  | strangeCharacter
  | missingColon
  | misplacedKey
  | misplacedValue
  | misplacedEntry
  | tabIndent
  | openQuote
  | markerInQuotes
  | unknownEscape
  | badDigits
  | badCodePoint
  | zeroIndent
  | trailingText
  | badAnchor
  | badTag
  | badDirective
  | badVersion
  | repeatedDirective
  | unknownHandle
  | noContent
  | expected (what : String)
  | unknownAnchor (name : String)
  | containsItself (name : String)
  | badBase64
  | mismatch (text tag : String)
  | badInclusion
  | complaints (list : List Complaint)
  deriving DecidableEq, Repr

/-- Only complaints about values take more than one line. -/
def Problem.message : Problem → String
  | unreadable => "control characters are not allowed"
  | noDocument => "EOF"
  | tooDeep => "exceeded max depth"
  | strangeCharacter => "found character that cannot start any token"
  | missingColon => "could not find expected ':'"
  | misplacedKey => "mapping keys are not allowed in this context"
  | misplacedValue => "mapping values are not allowed in this context"
  | misplacedEntry => "block sequence entries are not allowed in this context"
  | tabIndent => "found a tab character that violates indentation"
  | openQuote => "found unexpected end of stream"
  | markerInQuotes => "found unexpected document indicator"
  | unknownEscape => "found unknown escape character"
  | badDigits => "did not find expected hexdecimal number"
  | badCodePoint => "found invalid Unicode character escape code"
  | zeroIndent => "found an indentation indicator equal to 0"
  | trailingText => "did not find expected comment or line break"
  | badAnchor => "did not find expected alphabetic or numeric character"
  | badTag => "did not find expected tag URI"
  | badDirective => "found unknown directive name"
  | badVersion => "found incompatible YAML document"
  | repeatedDirective => "found duplicate directive"
  | unknownHandle => "found undefined tag handle"
  | noContent => "did not find expected node content"
  | expected what => "did not find expected " ++ what
  | unknownAnchor name => "unknown anchor '" ++ name ++ "' referenced"
  | containsItself name => "anchor '" ++ name ++ "' value contains itself"
  | badBase64 => "!!binary value contains invalid base64 data"
  | mismatch text tag => "cannot decode " ++ text ++ " as a " ++ tag
  | badInclusion => "map merge requires map or sequence of maps as the value"
  | complaints list => "unmarshal errors:\n  " ++ String.intercalate "\n  " (list.map Complaint.message)

end Codemod.Yaml
