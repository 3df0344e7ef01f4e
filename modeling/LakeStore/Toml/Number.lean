import LakeStore.Toml.Digits

/-!
Numbers: integers of 64 bits, and floats, of which only the text is kept.
-/

namespace LakeStore.Toml

open Scan

def isNegative : Scan Bool :=
  (char '-' *> return true) <|> (char '+' *> return false) <|> return false

def wholeDigits : Scan (List Nat) := do
  let digits ← groupedDigits 10
  guard (digits.head? ≠ some 0 ∨ digits.length = 1)
  return digits

def basedInteger (mark : String) (base : Nat) : Scan Int := do
  exactly mark
  return ofDigits base (← groupedDigits base)

def decimalInteger : Scan Int := do
  let negative ← isNegative
  let value : Int := ofDigits 10 (← wholeDigits)
  return if negative then -value else value

def integer : Scan Int := do
  let value ← basedInteger "0x" 16 <|> basedInteger "0o" 8 <|> basedInteger "0b" 2
    <|> decimalInteger
  guard (-9223372036854775808 ≤ value ∧ value ≤ 9223372036854775807)
  return value

def infinite : Nat :=
  1 <<< 1024 - 1 <<< 970

/--
Whether `mantissa * 10 ^ exponent` is too large for a float. The number of its digits decides this
unless it is about that of `infinite`, which has 309.
-/
def isInfinite (mantissa : Nat) (exponent : Int) : Bool :=
  let width := (Nat.toDigits 10 mantissa).length + exponent
  if mantissa = 0 ∨ width < 300 then
    false
  else if 320 < width then
    true
  else
    infinite * Nat.pow 10 (-exponent).toNat ≤ mantissa * Nat.pow 10 exponent.toNat

def fraction : Scan (List Nat) := do
  char '.'
  groupedDigits 10

def exponent : Scan Int := do
  discard <| one fun c => c = 'e' || c = 'E'
  let negative ← isNegative
  let value : Int := ofDigits 10 (← groupedDigits 10)
  return if negative then -value else value

def decimalFloat : Scan Unit := do
  let negative ← isNegative
  let whole ← wholeDigits
  let (digits, scale) ←
    (return ([], ← exponent)) <|> (return (← fraction, (← exponent <|> return 0)))
  let tooLarge := isInfinite (ofDigits 10 (whole ++ digits)) (scale - digits.length)
  guard (negative ∨ ¬ tooLarge)

def namedFloat : Scan Unit := do
  discard isNegative
  exactly "inf" <|> exactly "nan"

def float : Scan String :=
  taken (decimalFloat <|> namedFloat)

end LakeStore.Toml
