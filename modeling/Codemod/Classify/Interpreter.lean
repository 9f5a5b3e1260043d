import Codemod.Classify.Language
import Codemod.Files.Path
import Codemod.Pattern.Regex
import Codemod.Text.Blank

namespace Codemod.Classify

open Files Pattern

private def lineFeed : UInt8 := 10

private def baseName (path : String) : String := Text.lossy (Path.base path)

/-- What follows the first occurrence of `part`. -/
def afterFirst? (part : List Char) : List Char → Option (List Char)
  | [] => none
  | c :: s => if part.isPrefixOf (c :: s) then some ((c :: s).drop part.length) else afterFirst? part s

/-- What follows the name of a program hands on the script and its arguments. -/
def handsOn (s : List Char) : Bool :=
  ((afterFirst? "$0".toList (s.drop 1)).bind fun rest => afterFirst? "$@".toList (rest.drop 1)).isSome

/-- The program that a line of a shell script runs in its place on the script itself. -/
def replacement? : List Char → Option String
  | [] => none
  | c :: s =>
    let command := "exec ".toList
    let word := ((c :: s).drop command.length).takeWhile isWordChar
    let name := (List.range word.length).findSome? fun i =>
      let kept := word.length - i
      if handsOn ((c :: s).drop (command.length + kept)) then some (String.ofList (word.take kept)) else none
    match if command.isPrefixOf (c :: s) then name else none with
    | some name => some name
    | none => replacement? s

/-- An option or a variable in front of the program that an environment runs. -/
def isSetting (argument : String) : Bool :=
  let s := argument.toList
  s.contains '-' || (s.dropLast.drop 1).contains '='

def pythonRelease : Regex := pattern r"python\d\.\d+"

/-- The interpreter that a first line with a hash and an exclamation mark names. A shell script
can name another one on its first lines. -/
def interpreter? (content : Bytes) : Option String := do
  let lines := content.splitOn lineFeed
  let line := lines.headD []
  guard (line.startsWith "#!")
  let line := Text.lossy (line.drop 2)
  let program :: arguments := Text.words line | none
  let name := baseName program
  let name ← if name ≠ "env" then some name
    else if arguments.isEmpty then none
    else some (((arguments.find? fun a => !isSetting a).map baseName).getD name)
  let name := if name ≠ "sh" then name
    else ((lines.take 5).findSome? fun l => replacement? (Text.lossy l).toList).getD name
  guard (!(name = "osascript" && Bytes.contains line "-l"))
  return if pythonRelease.matchesIn name.toList then String.ofList (name.toList.takeWhile (· != '.')) else name

/-- Interpreters of TypeScript alone. -/
def sourceInterpreters : List String := ["bun", "deno", "ts-node", "tsx"]

/-- Interpreters of one other language. Those of several languages decide nothing. -/
def foreignInterpreters : List String :=
  ["Rscript", "apl", "aplx", "ash", "asy", "awk", "bash", "bb", "bigloo", "ccl", "chakra", "chicken", "clisp",
    "coffee", "cperl", "crystal", "csh", "csi", "cwl-runner", "d8", "dart", "dash", "dtrace", "dyalog", "ecl",
    "elixir", "elvish", "escript", "eui", "euiw", "fennel", "fish", "gawk", "gerbv", "gerbview", "gjs", "gn",
    "gnuplot", "gojq", "gosh", "groovy", "gsed", "guile", "hy", "instantfpc", "io", "ioke", "janet", "jaq",
    "jconsole", "jolie", "jq", "jqjq", "jruby", "js", "julia", "kak", "ksh", "lisp", "luau", "macruby", "make",
    "mawk", "minised", "mksh", "mmi", "moon", "nawk", "newlisp", "nextflow", "node", "nodejs", "nu", "nush",
    "ocaml", "ocamlrun", "ocamlscript", "openrc-run", "osascript", "pdksh", "php", "picolisp", "pike", "pil",
    "pwsh", "py", "pypy", "pypy3", "python", "python2", "python3", "qjs", "qmake", "r6rs", "racket", "rake",
    "raku", "rakudo", "rbx", "rc", "regina", "rexx", "rhino", "ruby", "rune", "runghc", "runhaskell", "runhugs",
    "sbcl", "scala", "scheme", "sclang", "scsynth", "sed", "sh", "ssed", "swipl", "tcc", "tclsh", "tcsh", "v8",
    "v8-shell", "wish", "yap", "zsh"]

/-- The language of the interpreter that the first line names. -/
def interpreted? (content : Bytes) : Option Language := do
  let name ← interpreter? content
  if sourceInterpreters.contains name then some .typeScript
  else if foreignInterpreters.contains name then some .foreign
  else none

end Codemod.Classify
