import Codemod.Classify.Interpreter
import Codemod.Classify.Modeline
import Codemod.Classify.Page
import Codemod.Classify.Signature
import Codemod.Classify.Vendored
import Codemod.Files.Path
import Codemod.Text.Lower
import Codemod.Workspace.Kind

namespace Codemod.Classify

open Files Pattern Workspace

/-- Extensions that several languages share. -/
def contested : List String :=
  [".html", ".ts", ".tsx", ".1", ".1in", ".1m", ".1x", ".2", ".3", ".3in", ".3m", ".3p", ".3pm", ".3qt",
    ".3x", ".4", ".5", ".6", ".7", ".8", ".9", ".al", ".as", ".asc", ".ash", ".asm", ".asy", ".b", ".bas",
    ".bb", ".bf", ".brd", ".bs", ".bst", ".cairo", ".cake", ".cfg", ".cgi", ".ch", ".cl", ".cls", ".cp",
    ".cs", ".csl", ".cue", ".d", ".ddl", ".dsp", ".e", ".ecl", ".es", ".ex", ".f", ".fcgi", ".for", ".fr",
    ".frag", ".frm", ".fs", ".ftl", ".fx", ".g", ".gd", ".gml", ".gs", ".gst", ".gts", ".h", ".hh", ".i",
    ".ice", ".inc", ".j", ".jq", ".json", ".k", ".l", ".lean", ".lisp", ".lp", ".ls", ".lsp", ".m", ".m4",
    ".man", ".mask", ".mc", ".md", ".mdoc", ".ml", ".mm", ".mo", ".mod", ".mojo", ".moo", ".mqh", ".ms",
    ".msg", ".n", ".nas", ".nb", ".ncl", ".nl", ".nr", ".nu", ".odin", ".p", ".pbt", ".php", ".pkl", ".pl",
    ".plist", ".plt", ".pluginspec", ".pm", ".pod", ".pp", ".prc", ".pro", ".properties", ".q", ".qs", ".r",
    ".re", ".res", ".rno", ".rpy", ".rs", ".rsc", ".rsh", ".s", ".sc", ".scd", ".sch", ".scm", ".shader",
    ".sls", ".sol", ".spec", ".sql", ".srt", ".st", ".star", ".svx", ".sw", ".t", ".tact", ".tl", ".toc",
    ".trigger", ".tsp", ".tst", ".txt", ".typ", ".v", ".vba", ".vcf", ".vhost", ".w", ".workflow", ".x",
    ".yaml", ".yml", ".yy"]

/-- Endings of one language whose last part alone is contested. -/
def settled : List String :=
  [".8xk.txt", ".8xp.txt", ".antlers.html", ".antlers.php", ".blade.php", ".coffee.md", ".cs.pp", ".eam.fs",
    ".ejs.t", ".end.frag", ".nim.cfg", ".pb.txt", ".rest.txt", ".rst.txt", ".start.frag"]

/-- The extension of a file name leaves the language open. -/
def isContested (path : Bytes) : Bool :=
  let name := Text.lower (Path.base path)
  (contested.map bytes).contains (Path.extension name) && !settled.any fun ending => name.endsWith ending

/-- Paths of generated files, or of directories that hold only such. -/
def generatedPaths : List Regex :=
  [r"(?:^|\/)\.idea\/", r"(^Pods|\/Pods)\/", r"(^|\/)Carthage\/Build\/",
    r"vendor\/([-0-9A-Za-z]+\.)+(com|edu|gov|in|me|net|org|fm|io)", r"(?:^|\/)htmlcov\/",
    r"(^|\/)\.pnp\..*$", r"node_modules/", r"Godeps/", r"__generated__/",
    r"\.[Dd][Ee][Ssſ][Ii][Gg][Nn][Ee][Rr]\.([Cc][Ssſ]|[Vv][Bb])$", r"\.feature\.cs$",
    r".\.zep\.(?:c|h|php)$", r"(^|\/)(\w+\.)?esy.lock$", r"(^|\/)\.terraform\.lock\.hcl$",
    r"(Gopkg|glide|composer|Cargo|Pipfile|poetry|pdm)\.lock$", r"(^|\/)flake\.lock$",
    r"Cargo\.toml\.orig$"].filterMap Regex.ofString?

/-- Extensions of generated files only. -/
def generatedExtensions : List Bytes := [".nib", ".xcworkspacedata", ".xcuserstate"]

/-- The file was written by a program, by its path and content. -/
def isGenerated (path content : Bytes) (extension : Bytes) : Bool :=
  generatedExtensions.contains extension || generatedPaths.any (·.matchesIn (chars path)) ||
    isSourceMap path content || isSigned extension content ||
    (([".html", ".htm", ".xhtml"] : List Bytes).contains extension && isGeneratedPage content)

/-- The extensions of each kind that has any. -/
abbrev Extensions := List (Kind × List String)

def defaultExtensions : Extensions :=
  [(.template, [".html"]), (.style, [".scss", ".sass", ".css"]), (.source, [".ts"])]

/-- Kinds by extension; the first entry of an extension counts. -/
structure Classifier where
  byExtension : List (Bytes × Kind)

/-- An extension in small letters with its dot. -/
def normalExtension (extension : String) : Bytes :=
  let lowered := Text.lower extension
  if lowered.startsWith "." then lowered else "." ++ lowered

/-- Of several kinds with one extension the last in the order of processing wins. -/
def Classifier.ofExtensions (extensions : Extensions) : Classifier :=
  ⟨(Kind.all.flatMap fun kind =>
    ((extensions.lookup kind).getD []).map fun e => (normalExtension e, kind)).reverse⟩

/-- The kind that the extension alone suggests. -/
def Classifier.candidate? (c : Classifier) (path : Bytes) : Option Kind :=
  c.byExtension.lookup (Text.lower (Path.extension path))

/-- Tags of a page about a language standard. -/
def standardTag : Regex := pattern <|
  "<emu-(?:alg|annex|biblio|clause|eqn|example|figure|gann|gmod|gprose|grammar|intro|not-ref|note|" ++
    "nt|prodref|production|rhs|table|t|xref)(?:$|\\s|>)"

/-- The root element of a message catalog. -/
def catalogTag : Regex := pattern r"<TS\b"

/-- The language of a content by its own rules: a page about a language standard is no page, and
a message catalog no source. -/
def contentLanguage? (extension content : Bytes) : Option Language :=
  if extension = ".html" then some (if standardTag.matchesIn (chars content) then .foreign else .page)
  else if extension = ".ts" then some (if catalogTag.matchesIn (chars content) then .foreign else .typeScript)
  else none

/-- The language of a file with a contested extension. What an editor is told comes first, then
the interpreter. A binary file has none. -/
def language? (extension content : Bytes) : Option Language :=
  if (content.take 8000).contains 0 then none
  else ((modeline? content).orElse fun _ => interpreted? content).orElse fun _ =>
    contentLanguage? extension content

/-- The kind of a file by its path, relative to the project, and its content. Vendored and
generated files have none, nor do files of another language with the same extension. -/
def Classifier.classify? (c : Classifier) (path : Bytes) (content : Option Bytes) : Option Kind := do
  let kind ← c.candidate? path
  guard (!isVendored (chars path))
  match content with
  | none => return kind
  | some content =>
    let extension := Text.lower (Path.extension path)
    guard (!isGenerated path content extension)
    guard (!isContested path || (language? extension content).any (·.isOf kind))
    return kind

end Codemod.Classify
