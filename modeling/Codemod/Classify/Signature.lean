import Codemod.Classify.Content
import Codemod.Pattern.Regex
import Codemod.Text.Lower
import Codemod.Total

namespace Codemod.Classify

open Pattern

/-- The lines are so long on average that nobody wrote them. -/
def isMinified (content : Bytes) : Bool :=
  let lines := contentLines content
  110 < total (lines.map List.length) / lines.length

def sourceMapReference : Regex := pattern r"^\/[*\/][#@] source(?:Mapping)?URL|sourceURL="

/-- A script or a style sheet that a program has packed. -/
def isPacked (content : Bytes) : Bool :=
  isMinified content || (lastLines content 2).any fun l => sourceMapReference.matchesIn (chars l)

def sourceMapStart : Regex := pattern "^\x7b\"version\":\\d+,|^\\/\\*\\* Begin line maps\\. \\*\\*\\/\x7b"

/-- A table from the places of a packed file to those of its sources. -/
def isSourceMap (path content : Bytes) : Bool :=
  let path := Text.lower path
  path.endsWith ".js.map" || path.endsWith ".css.map" ||
    (contentLines content).head?.any fun l => sourceMapStart.matchesIn (chars l)

/-- What a program writes into the first lines of its output. -/
structure Signature where
  extensions : List String
  /-- The first line that can hold the mark, counted from zero, and the number of such lines. -/
  first : Nat
  count : Nat
  /-- A shorter content is not signed. -/
  fewest : Nat
  mark : Regex

def Signature.isOn (signature : Signature) (lines : List Bytes) : Bool :=
  signature.fewest ≤ lines.length &&
    ((lines.drop signature.first).take signature.count).any fun l => signature.mark.matchesIn (chars l)

def signatures : List Signature :=
  [⟨[".go"], 0, 40, 2, pattern r"Code generated by"⟩,
    ⟨[".py", ".java", ".h", ".cc", ".cpp", ".m", ".rb", ".php"], 0, 3, 1,
      pattern r"Generated by the protocol buffer compiler\.  DO NOT EDIT!"⟩,
    ⟨[".js"], 5, 1, 6, pattern r"GENERATED CODE -- DO NOT EDIT!"⟩,
    ⟨[".rb", ".py", ".go", ".js", ".m", ".java", ".h", ".cc", ".cpp", ".php"], 0, 6, 1,
      pattern r"Autogenerated by Thrift Compiler"⟩,
    ⟨[".c", ".cpp"], 0, 1, 1, pattern r"Generated by Cython"⟩,
    ⟨[".meta"], 0, 1, 1, pattern r"fileFormatVersion: "⟩,
    ⟨[".rb"], 2, 1, 3, pattern r"^# This file is automatically generated by Racc"⟩,
    ⟨[".java"], 0, 1, 1, pattern r"^\/\* The following code was generated by JFlex "⟩,
    ⟨[".java"], 0, 1, 1, pattern r"\/\/ This is a generated file\. Not intended for manual editing\."⟩,
    ⟨[".java"], 0, 2, 1, pattern r"This file is generated by jOOQ\."⟩,
    ⟨[".rd"], 0, 1, 1, pattern r"% Generated by roxygen2: do not edit by hand"⟩,
    ⟨[".js"], 0, 1, 1, pattern r"\/\* parser generated by jison |\/\* generated by jison-lex "⟩,
    ⟨[".cpp", ".hpp", ".h", ".cc"], 0, 1, 1, pattern r"\/\/ Generated by the gRPC"⟩,
    ⟨[".yyp"], 2, 1, 3, pattern "\"modelName\":\\s*\"GM"⟩,
    ⟨[".yyp"], 0, 1, 3, pattern "^\\d\\.\\d\\.\\d.+\\|\x7b"⟩,
    ⟨[".c"], 0, 1, 1, pattern r"\/\* GIMP [a-zA-Z0-9\- ]+ C-Source image dump \(.+\.c\) \*\/"⟩,
    ⟨[".c"], 0, 1, 1, pattern r"\/\*  GIMP header image file format \([a-zA-Z0-9\- ]+\): .+\.h  \*\/"⟩,
    ⟨[".js", ".py", ".lua", ".cpp", ".h", ".java", ".cs", ".php"], 0, 3, 1, pattern r"Generated by Haxe"⟩]

/-- How often `part`, which does not overlap itself, stands in a text. -/
def occurrences (part : Bytes) : Bytes → Nat
  | [] => 0
  | c :: s => occurrences part s + if part.isPrefixOf (c :: s) then 1 else 0

/-- Names that a compiler to JavaScript makes up, those that nobody else would choose for three. -/
def inventedNames (line : Bytes) : Nat :=
  let count (names : List String) : Nat := total (names.map fun name => occurrences (bytes name) line)
  count ["_fn", "_i", "_len", "_ref", "_results"] +
    3 * count ["__bind", "__extends", "__hasProp", "__indexOf", "__slice"]

/-- A script that is one function call and declares many invented names. -/
def isCompiledScript (content : Bytes) : Bool :=
  let lines := contentLines content
  lines.headD [] = ("(function() \x7b" : Bytes) &&
    (lastLines content 1).headD [] = ("\x7d).call(this);" : Bytes) &&
    3 ≤ total ((lines.filter (·.contains "var ")).map inventedNames)

/-- A comment near the top that names a maker of parsers. -/
def parserComment : Regex := pattern r"^(?:[^\/]|\/[^*])*\/\*(?:[^*]|\*[^\/])*Generated by PEG.js"

def isGeneratedParser (content : Bytes) : Bool :=
  parserComment.matchesIn (chars ((contentLines content).take 5).flatten)

/-- The documentation of an assembly. -/
def isAssemblyDoc (content : Bytes) : Bool :=
  let lines := content.splitOn newline
  3 < lines.length && (lines[1]?.any (·.contains "<doc>")) && (lines[2]?.any (·.contains "<assembly>")) &&
    (lines[lines.length - 2]?.any (·.contains "</doc>"))

def embeddedFont : Regex := pattern "(\n|\r)\\s*(?:currentfile eexec\\s+|\\/sfnts\\s+\\[)"

/-- Programs sign with a number or with one of these names. -/
def programName : Regex := pattern <|
  r"[0-9]|draw|mpage|ImageMagick|inkscape|MATLAB|PCBNEW|pnmtops|\(Unknown\)|Serif Affinity|" ++
    r"Filterimage -tops"

/-- A page description that holds a font or that a program has signed. -/
def isGeneratedPostScript (content : Bytes) : Bool :=
  let lines := contentLines content
  embeddedFont.matchesIn (chars content) ||
    (((lines.take 10).find? (·.startsWith "%%Creator: ")).any fun creator =>
      programName.matchesIn (chars creator) ||
        (creator.contains "EAGLE" && (lines.take 5).any (·.startsWith "%%Title: EAGLE Drawing ")))

def unmodified : Regex :=
  pattern r"generated code[^0-9A-Za-z_][^0-9A-Za-z_][^0-9A-Za-z_]?do not modify"

/-- The content of a file with this extension shows that a program wrote it. -/
def isSigned (extension content : Bytes) : Bool :=
  let lines := contentLines content
  let among (extensions : List String) : Bool := (extensions.map bytes).contains extension
  (signatures.any fun s => among s.extensions && s.isOn lines) ||
    (among [".js", ".css"] && isPacked content) ||
    (among [".js"] && (isCompiledScript content || isGeneratedParser content)) ||
    (among [".xml"] && isAssemblyDoc content) ||
    (among [".ps", ".eps", ".pfa"] && isGeneratedPostScript content) ||
    (among [".dart"] && lines.head?.any fun l => unmodified.matchesIn (chars (Text.lower l)))

end Codemod.Classify
