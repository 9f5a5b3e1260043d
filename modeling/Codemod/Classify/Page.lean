import Codemod.Classify.Content
import Codemod.Pattern.Regex
import Codemod.Text.Lower

namespace Codemod.Classify

open Pattern

def doxygenMark : Regex := pattern r"<!--\s+Generated by Doxygen\s+[.0-9]+\s*-->"

def orgMode : Regex := pattern r"org\s+mode"

def isBlankChar (c : Char) : Bool := c == ' ' || c == '\t' || c == '\n' || c == '\r' || c == '\x0c'

/-- The inner texts of meta tags. -/
def metaTags : Nat → List Char → List (List Char)
  | 0, _ => []
  | _, [] => []
  | n + 1, c :: s =>
    let start := "<meta".toList
    let inner := ((c :: s).drop start.length).takeWhile (· != '>')
    let rest := ((c :: s).drop start.length).dropWhile (· != '>')
    if start.isPrefixOf (c :: s) && inner.head?.any isBlankChar && 2 ≤ inner.length && !rest.isEmpty then
      (inner ++ ['>']) :: metaTags n (rest.drop 1)
    else metaTags n s

/-- A value behind an equals sign: in quotes, or up to white space. It is not empty. -/
def metaValue? (s : List Char) : Option (List Char × List Char) :=
  match s with
  | [] => none
  | q :: rest =>
    if q == '"' || q == '\'' then
      let inner := rest.takeWhile (· != q)
      let after := rest.dropWhile (· != q)
      if inner.isEmpty || after.isEmpty then none else some (inner, after.drop 1)
    else
      let inner := s.takeWhile fun c => !(isBlankChar c || c == '"' || c == '\'')
      some (inner, s.drop inner.length)

/-- One of the named attributes at the front of a text, after white space. -/
def metaAttribute? (s : List Char) : Option (String × List Char × List Char) := do
  guard (s.head?.any isBlankChar)
  let s := s.dropWhile isBlankChar
  let name ← ["name", "content", "value"].find? fun name => name.toList.isPrefixOf s
  let s := (s.drop name.length).dropWhile isBlankChar
  guard (s.head? == some '=')
  let (value, rest) ← metaValue? ((s.drop 1).dropWhile isBlankChar)
  return (name, value, rest)

/-- The attributes of a meta tag; of one name the last counts. -/
def metaAttributes : Nat → List (String × List Char) → List Char → List (String × List Char)
  | 0, found, _ => found
  | _, found, [] => found
  | n + 1, found, c :: s =>
    match metaAttribute? (c :: s) with
    | some (name, value, rest) => metaAttributes n ((name, value) :: found) rest
    | none => metaAttributes n found s

def trimQuotes (s : List Char) : List Char :=
  let isQuote (c : Char) : Bool := c == '"' || c == '\''
  ((s.dropWhile isQuote).reverse.dropWhile isQuote).reverse

/-- Programs that sign the pages they write. -/
def generators : List String := ["jlatex2html", "latex2html", "groff", "makeinfo", "texi2html", "ronn"]

/-- A meta tag that names a generator. -/
def namesGenerator (tag : List Char) : Bool :=
  let attrs := metaAttributes tag.length [] tag
  let get (name : String) : List Char := (attrs.lookup name).getD []
  let value := if (get "value").isEmpty then get "content" else get "value"
  let value := trimQuotes value
  trimQuotes (get "name") == "generator".toList && !value.isEmpty &&
    (generators.any (fun g => Bytes.contains (bytes (String.ofList value)) g) || orgMode.matchesIn value)

/-- The first lines of a page show that a program wrote it. -/
def isGeneratedPage (content : Bytes) : Bool :=
  let lines := (contentLines content).take 30
  let pkgdown : Bytes := "<!-- Generated by pkgdown: do not edit by hand -->"
  (2 ≤ lines.length && (lines.take 2).any fun l => l.contains pkgdown) ||
    (lines[2]?.any fun l => l.startsWith "<!-- This is an automatically generated file.") ||
    (lines.any fun l => doxygenMark.matchesIn (chars l)) ||
    let text := (Text.lower (Bytes.join " " lines)).filter (· != ('\r' : Char).toUInt8)
    (metaTags text.length (chars text)).any namesGenerator

end Codemod.Classify
