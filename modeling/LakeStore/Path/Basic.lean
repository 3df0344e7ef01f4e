/-!
Paths into a store. A path is given as text with `/` between its names, in many spellings.
`absolutePath` resolves dot segments and keeps empty names after the first name, as addresses do;
`StorePath.ofString` also drops the empty names, and is the form under which a store keeps an
entry.
-/

namespace LakeStore

def splitSlashes : List Char → List (List Char)
  | [] => [[]]
  | c :: rest =>
    if c = '/' then
      [] :: splitSlashes rest
    else
      match splitSlashes rest with
      | [] => [[c]]
      | piece :: pieces => (c :: piece) :: pieces

def pieces (text : String) : List String :=
  (splitSlashes text.toList).map String.ofList

def names (text : String) : List String :=
  (pieces text).filter (· ≠ "")

def slashed : List String → String
  | [] => ""
  | name :: rest => "/" ++ name ++ slashed rest

def rooted (names : List String) : String :=
  if names = [] then "/" else slashed names

/--
Takes one more piece into a path: `.` stays where it is, `..` goes back one name, but never above
the root, and an empty piece counts only behind another name.
-/
def enter (path : List String) (piece : String) : List String :=
  if piece = "." then
    path
  else if piece = ".." then
    path.dropLast
  else if piece = "" ∧ path = [] then
    path
  else
    path ++ [piece]

def resolveDots (text : String) : List String :=
  (pieces text).foldl enter []

/-- The path of an address: from the root, without dot segments. -/
def absolutePath (text : String) : String :=
  rooted (resolveDots text)

/-- A place in a store, as the names that lead to it from the root. -/
abbrev StorePath := List String

namespace StorePath

def ofString (text : String) : StorePath :=
  (resolveDots text).filter (· ≠ "")

def text (path : StorePath) : String :=
  rooted path

def ancestors (path : StorePath) : List StorePath :=
  (List.range path.length).tail.map path.take

def Below (directory path : StorePath) : Prop :=
  directory <+: path ∧ directory ≠ path

instance (directory path : StorePath) : Decidable (Below directory path) :=
  inferInstanceAs (Decidable (_ ∧ _))

end StorePath

def normalize (text : String) : String :=
  (StorePath.ofString text).text

end LakeStore
