import Codemod.Classify.Content
import Codemod.Classify.Language
import Codemod.Pattern.Regex

namespace Codemod.Classify

open Pattern

/-- The part of a content that editors look at: a short one whole, of a longer one the first
five lines, right after them the last five. -/
def editorLines (content : Bytes) : Bytes :=
  let lines := content.splitOn newline
  if lines.length ≤ 10 then content
  else Bytes.join "\n" (lines.take 5) ++ Bytes.join "\n" (lines.drop (lines.length - 5))

/-- `s` starts with `word`, written in small or capital letters. -/
def startsWithWord (word : String) (s : List Char) : Bool :=
  (s.take word.length).map Char.toLower = word.toList

private def isBlankIn (c : Char) : Bool :=
  c == ' ' || c == '\t' || c == '\n' || c == '\r' || c == '\x0c'

private def skipBlanks (s : List Char) : List Char := s.dropWhile isBlankIn

private def restOfLine (s : List Char) : List Char := s.dropWhile (· != '\n')

def starMark : List Char := "-*-".toList

/-- The shortest text on this line, of at least one character, that blanks and a star mark
follow; and what is behind the mark. -/
def untilStars? : List Char → Option (List Char × List Char)
  | [] => none
  | c :: s =>
    if c == '\n' then none
    else if starMark.isPrefixOf (skipBlanks s) then some ([c], (skipBlanks s).drop starMark.length)
    else (untilStars? s).map fun (text, rest) => (c :: text, rest)

/-- The text between star marks, without the blanks around it. It can begin with blanks only
where there is no other way to read it. -/
def betweenStars? (s : List Char) : Option (List Char × List Char) :=
  let blanks := (s.takeWhile isBlankIn).length
  (List.range (blanks + 1)).findSome? fun kept => untilStars? (s.drop (blanks - kept))

/-- The text behind the last star mark of the line that another mark ends. -/
def starText? : List Char → Option (List Char × List Char)
  | [] => none
  | c :: s =>
    if c == '\n' then none
    else match starText? s with
      | some found => some found
      | none =>
        if starMark.isPrefixOf (c :: s) then betweenStars? ((c :: s).drop starMark.length) else none

/-- The texts between star marks, one for each line at most. -/
def starTexts : Nat → List Char → List (List Char)
  | 0, _ => []
  | n + 1, s =>
    match starText? s with
    | some (text, rest) => text :: starTexts n (restOfLine rest)
    | none => starTexts n ((restOfLine s).drop 1)

/-- The value of the last `mode` variable. -/
def modeVariable? : List Char → Option (List Char)
  | [] => none
  | c :: s =>
    match modeVariable? s with
    | some mode => some mode
    | none =>
      match skipBlanks ((c :: s).drop 4) with
      | ':' :: value =>
        let mode := (skipBlanks value).takeWhile fun c => !(isBlankIn c || c == ';')
        if startsWithWord "mode" (c :: s) && !mode.isEmpty then some mode else none
      | _ => none

/-- The language named between star marks; the last such text counts. -/
def starLanguage? (s : List Char) : Option Language := do
  let text ← (starTexts s.length s).getLast?
  Language.ofName? ((modeVariable? text).getD text)

/-- The rest of the line behind a colon, and what is left from the end of that line on. -/
def afterColon? (s : List Char) : Option (List Char × List Char) :=
  match skipBlanks s with
  | ':' :: rest =>
    let options := skipBlanks rest
    some (options.takeWhile (· != '\n'), restOfLine options)
  | _ => none

/-- Options behind the name of the editor, which can carry a version. -/
def afterEditor? (s : List Char) : Option (List Char × List Char) :=
  let versioned (s : List Char) : Option (List Char) :=
    let digits := if s.head?.any fun c => c == '<' || c == '=' || c == '>' then s.drop 1 else s
    if digits.head?.any Char.isDigit then some (digits.dropWhile Char.isDigit) else none
  match s with
  | 'v' :: 'i' :: 'm' :: rest => ((versioned rest).bind afterColon?).orElse fun _ => afterColon? rest
  | 'v' :: 'i' :: rest => afterColon? rest
  | _ => none

/-- Options that begin here. -/
def optionsAt? (atLineStart : Bool) (s : List Char) : Option (List Char × List Char) :=
  let early := if s.head?.any isBlankIn then afterEditor? (s.drop 1)
    else if atLineStart then afterEditor? s
    else none
  early.orElse fun _ =>
    match s.dropWhile fun c => c == ' ' || c == '\t' with
    | 'e' :: 'x' :: rest => afterColon? rest
    | _ => none

/-- The options for an editor, one for each line at most. -/
def optionLines : Nat → Bool → List Char → List (List Char)
  | 0, _, _ => []
  | n + 1, atLineStart, s =>
    match optionsAt? atLineStart s with
    | some (options, rest) => options :: optionLines n false rest
    | none =>
      match s with
      | [] => []
      | c :: s => optionLines n (c == '\n') s

/-- The values of the options that name a file type. -/
def fileTypes : Nat → List Char → List (List Char)
  | 0, _ => []
  | _, [] => []
  | n + 1, c :: s =>
    let found := ["filetype", "ft", "syntax"].findSome? fun name =>
      match skipBlanks ((c :: s).drop name.length) with
      | '=' :: value =>
        let type := value.takeWhile isWordChar
        let rest := value.drop type.length
        if startsWithWord name (c :: s) && !type.isEmpty && (rest.head?.all fun c => isBlankIn c || c == ':') then
          some (type, rest.drop 1)
        else none
      | _ => none
    match found with
    | some (type, rest) => type :: fileTypes n rest
    | none => fileTypes n s

/-- The language that the last line of options names; if it names several, none. -/
def optionLanguage? (s : List Char) : Option Language := do
  let options ← (optionLines (s.length + 1) true s).getLast?
  let type :: others := fileTypes options.length options | none
  guard (others.all (· = type))
  Language.ofName? type

/-- The language that a line for an editor names. -/
def modeline? (content : Bytes) : Option Language :=
  let s := chars (editorLines content)
  (starLanguage? s).orElse fun _ => optionLanguage? s

end Codemod.Classify
