/-!
The values of a TOML document, and how its tables grow as the document is read. A table can be
named in several ways, and how it was first named decides what may still be added to it: each key
is given a value once, and each table is defined once.
-/

namespace LakeStore.Toml

/-- How a table was first named. -/
inductive Origin where
  | inline
  | header
  | implied
  | dotted
deriving DecidableEq, Repr

inductive Value where
  | string (text : String)
  | integer (value : Int)
  | float (text : String)
  | boolean (value : Bool)
  | dateTime (text : String)
  | array (items : List Value)
  | table (origin : Origin) (entries : List (String × Value))
  | tables (tables : List (List (String × Value)))

abbrev Entries := List (String × Value)

namespace Entries

def alter (key : String) (change : Option Value → Option Value) : Entries → Option Entries
  | [] => return [(key, ← change none)]
  | (other, value) :: rest =>
    if other = key then
      return (key, ← change (some value)) :: rest
    else
      return (other, value) :: (← alter key change rest)

/--
Changes the table that a path leads to. On the way, the last of several tables with the same header
stands for all, and tables that are missing come into being: those of a dotted key as `dotted`, and
those of a header as `implied`. A dotted key does not lead into a table that has a header.
-/
def alterAt (isDotted : Bool) (change : Origin → Entries → Option Entries) :
    List String → Origin → Entries → Option Entries
  | [], origin, entries => change origin entries
  | key :: path, _, entries => entries.alter key fun
    | none =>
      let origin := if isDotted then .dotted else .implied
      return .table origin (← alterAt isDotted change path origin [])
    | some (.table origin inner) => do
      guard (origin ≠ .inline ∧ ¬ (isDotted ∧ origin = .header))
      return .table origin (← alterAt isDotted change path origin inner)
    | some (.tables tables) => do
      let inner ← alterAt isDotted change path .header (← tables.getLast?)
      return .tables (tables.dropLast ++ [inner])
    | some _ => none

def define (path : List String) (value : Value) (entries : Entries) : Option Entries := do
  let last ← path.getLast?
  let add : Origin → Entries → Option Entries := fun origin inner => do
    guard (path.length = 1 ∨ origin = .dotted)
    inner.alter last fun old? => if old?.isSome then none else some value
  alterAt true add path.dropLast .header entries

def openTable (path : List String) (entries : Entries) : Option Entries := do
  let last ← path.getLast?
  let add : Origin → Entries → Option Entries := fun _ inner =>
    match inner.lookup last with
    | none => some (inner ++ [(last, .table .header [])])
    | some (.table .implied old) =>
      some (inner.filter (·.1 ≠ last) ++ [(last, .table .header old)])
    | some _ => none
  alterAt false add path.dropLast .header entries

def openNextTable (path : List String) (entries : Entries) : Option Entries := do
  let last ← path.getLast?
  let add : Origin → Entries → Option Entries := fun _ inner => inner.alter last fun
    | none => some (.tables [[]])
    | some (.tables tables) => some (.tables (tables ++ [[]]))
    | some _ => none
  alterAt false add path.dropLast .header entries

end Entries

end LakeStore.Toml
