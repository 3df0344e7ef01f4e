import LakeStore.Toml.Blank
import LakeStore.Toml.Digits

/-!
Quoted text. There are four forms: between double quotes a backslash starts an escape, and between
single quotes it is a character like any other; a quote written three times opens a text that may
go over several lines.
-/

namespace LakeStore.Toml

open Scan

def characterCode (width : Nat) : Scan Char := do
  let code := ofDigits 16 (← times width (digit 16))
  guard code.isValidChar
  return Char.ofNat code

def escape : Scan Char := do
  char '\\'
  match ← one fun _ => true with
  | 'b' => return '\x08'
  | 't' => return '\t'
  | 'n' => return '\n'
  | 'f' => return '\x0c'
  | 'r' => return '\r'
  | '"' => return '"'
  | '\\' => return '\\'
  | 'u' => characterCode 4
  | 'U' => characterCode 8
  | _ => failure

def ownCharacter (special : List Char) : Scan Char :=
  one fun c => isPlain c && c ∉ special

def shortText (quote : Char) (character : Scan Char) : Scan String := do
  char quote
  let text ← many character
  char quote
  return String.ofList text

/--
Reads text between two runs of three quotes. A line break right at the start is dropped. One or two
quotes in a row belong to the text, even right before the three that end it.
-/
def longText (quote : Char) (piece : Scan (List Char)) : Scan String := do
  let three := discard <| times 3 (char quote)
  three
  ifThere lineBreak
  let pieces ← many (piece <|> innerQuotes)
  three
  let last ← many (one (· = quote))
  guard (last.length ≤ 2)
  return String.ofList (pieces.flatten ++ last)
where
  innerQuotes : Scan (List Char) := do
    let run ← takeSome (· = quote)
    guard (run.length < 3)
    return run

def innerBreak : Scan (List Char) :=
  lineBreak *> return ['\n']

def foldedBreak : Scan (List Char) := do
  char '\\'
  blanks
  lineBreak
  discard <| many (discard (takeSome fun c => c = ' ' || c = '\t') <|> lineBreak)
  return []

def shortEscapedText : Scan String :=
  shortText '"' (ownCharacter ['"', '\\'] <|> escape)

def shortLiteralText : Scan String :=
  shortText '\'' (ownCharacter ['\''])

def longEscapedText : Scan String :=
  let character := ownCharacter ['"', '\\'] <|> escape
  longText '"' ((return [← character]) <|> foldedBreak <|> innerBreak)

def longLiteralText : Scan String :=
  longText '\'' ((return [← ownCharacter ['\'']]) <|> innerBreak)

def quotedText : Scan String :=
  longEscapedText <|> shortEscapedText <|> longLiteralText <|> shortLiteralText

end LakeStore.Toml
