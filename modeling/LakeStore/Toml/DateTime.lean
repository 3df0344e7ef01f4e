import LakeStore.Toml.Digits

/-!
Dates and times of day, of which only the text is kept. A date has to be one of the calendar.
-/

namespace LakeStore.Toml

open Scan

def isLeapYear (year : Nat) : Bool :=
  year % 4 = 0 && (year % 100 ≠ 0 || year % 400 = 0)

def monthLength (year month : Nat) : Nat :=
  if month = 2 then
    if isLeapYear year then 29 else 28
  else if month ∈ [4, 6, 9, 11] then
    30
  else
    31

def date : Scan Unit := do
  let year ← field 4 0 9999
  char '-'
  let month ← field 2 1 12
  char '-'
  discard <| field 2 1 (monthLength year month)

def timeOfDay : Scan Unit := do
  discard <| field 2 0 23
  char ':'
  discard <| field 2 0 59
  char ':'
  discard <| field 2 0 60
  ifThere do
    char '.'
    discard <| takeSome Char.isDigit

def offset : Scan Unit :=
  char 'Z' <|> char 'z' <|> do
    char '+' <|> char '-'
    discard <| field 2 0 23
    char ':'
    discard <| field 2 0 59

def dateAndTime : Scan Unit := do
  date
  ifThere do
    char 'T' <|> char 't' <|> char ' '
    timeOfDay
    ifThere offset

def dateTime : Scan String :=
  taken (dateAndTime <|> timeOfDay)

end LakeStore.Toml
