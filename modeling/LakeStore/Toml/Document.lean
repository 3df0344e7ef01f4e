import LakeStore.Toml.DateTime
import LakeStore.Toml.Number
import LakeStore.Toml.Quoted
import LakeStore.Toml.Value

/-!
Reading a TOML document. A text is read into lines, and the lines, one after the other, into the
tables that they define.
-/

namespace LakeStore.Toml

open Scan

/-- Neither do values nest this deep, nor has a dotted key this many parts. -/
def maxDepth : Nat := 80

def isBareKeyChar (c : Char) : Bool :=
  c.isAlphanum || c = '_' || c = '-'

def simpleKey : Scan String :=
  shortEscapedText <|> shortLiteralText <|> return String.ofList (← takeSome isBareKeyChar)

def dottedKey : Scan (List String) := do
  let path ← separated (char '.') (blanks *> simpleKey <* blanks)
  guard (path.length < maxDepth)
  return path

def binding (value : Scan Value) : Scan (List String × Value) := do
  let path ← dottedKey
  char '='
  blanks
  let value ← value
  blanks
  return (path, value)

def boolean : Scan Bool :=
  (exactly "true" *> return true) <|> (exactly "false" *> return false)

def array (value : Scan Value) : Scan Value := do
  char '['
  let items ← (do
      let items ← separated (char ',') (gap *> value <* gap)
      ifThere (char ',')
      return items)
    <|> return []
  gap
  char ']'
  return .array items

def inlineTable (value : Scan Value) : Scan Value := do
  char '\x7b'
  let bindings ← separated (char ',') (binding value) <|> return []
  blanks
  char '\x7d'
  match bindings.foldlM (fun entries (path, value) => Entries.define path value entries) [] with
  | some entries => return .table .inline entries
  | none => failure

def value (depth : Nat) : Scan Value :=
  (return .string (← quotedText)) <|> (return .dateTime (← dateTime)) <|>
  (return .float (← float)) <|> (return .integer (← integer)) <|>
  (return .boolean (← boolean)) <|>
  match depth with
  | 0 => failure
  | depth + 1 => array (value depth) <|> inlineTable (value depth)

inductive Line where
  | binding (path : List String) (value : Value)
  | header (path : List String)
  | nextHeader (path : List String)
  | blank

def line : Scan Line := do
  blanks
  let content ← header <|> nextHeader <|> assignment <|> return .blank
  blanks
  ifThere comment
  return content
where
  header : Scan Line := do
    char '['
    let path ← dottedKey
    char ']'
    return .header path
  nextHeader : Scan Line := do
    exactly "[["
    let path ← dottedKey
    exactly "]]"
    return .nextHeader path
  assignment : Scan Line := do
    let (path, value) ← binding (value (maxDepth - 1))
    return .binding path value

def lines : Scan (List Line) := do
  ifThere (char '\uFEFF')
  separated lineBreak line

structure Document where
  here : List String := []
  entries : Entries := []

def Document.read (document : Document) : Line → Option Document
  | .blank => document
  | .header path => return ⟨path, ← document.entries.openTable path⟩
  | .nextHeader path => return ⟨path, ← document.entries.openNextTable path⟩
  | .binding path value => do
    let define : Origin → Entries → Option Entries := fun _ entries => entries.define path value
    return { document with
      entries := ← document.entries.alterAt false define document.here .header }

def parse? (text : String) : Option Entries := do
  let lines ← lines.readAll text
  return (← lines.foldlM Document.read {}).entries

end LakeStore.Toml
