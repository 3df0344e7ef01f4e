import LakeStore.Toml.Scan

/-!
What stands between the parts of a TOML document: blanks, comments and line breaks.
-/

namespace LakeStore.Toml

open Scan

def isPlain (c : Char) : Bool :=
  c = '\t' || (' ' ≤ c && c ≠ '\x7f')

def blanks : Scan Unit :=
  discard <| takeWhile fun c => c = ' ' || c = '\t'

def lineBreak : Scan Unit :=
  char '\n' <|> exactly "\r\n"

def comment : Scan Unit := do
  char '#'
  discard <| takeWhile isPlain

def gap : Scan Unit := do
  blanks
  discard <| many ((lineBreak <|> comment) *> blanks)

end LakeStore.Toml
