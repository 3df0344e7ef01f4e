/-!
Reading text from its front. A reader takes a piece off the text that is left, or fails, in which
case another reader can be tried on the same text.
-/

namespace LakeStore.Toml

/-- A reader, whose state is the text that is left. -/
abbrev Scan := StateT (List Char) Option

namespace Scan

variable {α : Type}

def one (kind : Char → Bool) : Scan Char
  | c :: rest => if kind c then some (c, rest) else none
  | [] => none

def char (c : Char) : Scan Unit :=
  discard <| one (· = c)

def exactly (expected : String) : Scan Unit := fun input =>
  (expected.toList.isPrefixOf? input).map ((), ·)

def takeWhile (kind : Char → Bool) : Scan (List Char) := fun input =>
  some (input.span kind)

def takeSome (kind : Char → Bool) : Scan (List Char) := do
  return (← one kind) :: (← takeWhile kind)

def ifThere (piece : Scan Unit) : Scan Unit :=
  piece <|> pure ()

def times : Nat → Scan α → Scan (List α)
  | 0, _ => return []
  | count + 1, piece => return (← piece) :: (← times count piece)

def many (piece : Scan α) : Scan (List α) := fun input =>
  some (go input.length input)
where
  go : Nat → List Char → List α × List Char
    | 0, input => ([], input)
    | bound + 1, input =>
      match piece input with
      | none => ([], input)
      | some (first, rest) =>
        let (others, rest) := go bound rest
        (first :: others, rest)

def separated (mark : Scan Unit) (piece : Scan α) : Scan (List α) := do
  return (← piece) :: (← many (mark *> piece))

def taken (reader : Scan α) : Scan String := fun input => do
  let (_, rest) ← reader input
  return (String.ofList (input.take (input.length - rest.length)), rest)

def readAll (reader : Scan α) (text : String) : Option α := do
  let (result, rest) ← reader text.toList
  guard rest.isEmpty
  return result

end Scan

end LakeStore.Toml
