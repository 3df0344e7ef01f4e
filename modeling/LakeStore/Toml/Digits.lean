import LakeStore.Toml.Scan

/-!
Digits, and the numbers that they write.
-/

namespace LakeStore.Toml

open Scan

def digitValue? (base : Nat) (c : Char) : Option Nat :=
  let value? :=
    if '0' ≤ c ∧ c ≤ '9' then some (c.toNat - '0'.toNat)
    else if 'a' ≤ c ∧ c ≤ 'f' then some (c.toNat - 'a'.toNat + 10)
    else if 'A' ≤ c ∧ c ≤ 'F' then some (c.toNat - 'A'.toNat + 10)
    else none
  value?.filter (· < base)

def digit (base : Nat) : Scan Nat
  | c :: rest => (digitValue? base c).map (·, rest)
  | [] => none

def ofDigits (base : Nat) (digits : List Nat) : Nat :=
  digits.foldl (base * · + ·) 0

def groupedDigits (base : Nat) : Scan (List Nat) := do
  return (← digit base) :: (← many (ifThere (char '_') *> digit base))

def field (width low high : Nat) : Scan Nat := do
  let value := ofDigits 10 (← times width (digit 10))
  guard (low ≤ value ∧ value ≤ high)
  return value

end LakeStore.Toml
