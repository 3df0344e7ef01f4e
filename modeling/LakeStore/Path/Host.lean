import LakeStore.Path.Basic

/-!
Paths on the host, as text. They are compared and taken apart by their components, so that repeated
slashes and inner `.` do not count, while `..` stays: what it means depends on the links on the
disk.
-/

namespace LakeStore.HostPath

def isAbsolute (path : String) : Bool :=
  path.toList.head? = some '/'

def endsInSlash (path : String) : Bool :=
  path.toList.getLast? = some '/'

/-- The components of a path. The root is the component `/`, and `.` is one only at the start. -/
def components (path : String) : List String :=
  if isAbsolute path then
    "/" :: (names path).filter (· ≠ ".")
  else
    match names path with
    | "." :: rest => "." :: rest.filter (· ≠ ".")
    | rest => rest.filter (· ≠ ".")

def ofComponents : List String → String
  | [] => ""
  | "/" :: rest => rooted rest
  | first :: rest => first ++ slashed rest

def starts (path : String) : List String :=
  match pieces path with
  | [] => []
  | first :: rest =>
    if first ≠ "" then first :: go first rest
    else if rest = [] then []
    else "/" :: go "" rest
where
  go (before : String) : List String → List String
    | [] => []
    | piece :: rest =>
      let text := before ++ "/" ++ piece
      if piece = "" ∨ piece = "." then go text rest else text :: go text rest

/--
The paths above a path, nearest first: up to the root, or to the empty path. Each is a part of the
text as it stands, so that repeated slashes and inner `.` are still in it.
-/
def parents (path : String) : List String :=
  let above := (starts path).dropLast.reverse
  if isAbsolute path ∨ starts path = [] then above else above ++ [""]

def parent? (path : String) : Option String :=
  (parents path).head?

def relative? (base path : String) : Option (List String) :=
  let above := components base
  if above <+: components path then some ((components path).drop above.length) else none

def join (base relative : String) : String :=
  if isAbsolute relative ∨ base = "" then
    relative
  else if endsInSlash base then
    base ++ relative
  else
    base ++ "/" ++ relative

def below (base : String) (names : List String) : String :=
  names.foldl join base

end LakeStore.HostPath
