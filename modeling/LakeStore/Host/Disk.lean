import LakeStore.Host.Error
import LakeStore.Path.Host
import LakeStore.PathMap
import LakeStore.Time

/-!
A disk of the host: directories, files and symbolic links, and how the text of a path leads to one
of them. A file has an identity apart from its place, so that it can be used through an open handle
after it is gone from the tree. A directory keeps the time at which it was made or last stamped.
-/

namespace LakeStore

structure File where
  data : ByteArray
  modified : Time

inductive Disk.Node where
  | directory (modified : Time)
  /-- A file, by its position among all the files that the disk ever held. -/
  | file (id : Nat)
  | link (target : String) (modified : Time)
deriving DecidableEq, Repr

def Disk.Node.isDirectory : Disk.Node → Bool
  | .directory _ => true
  | _ => false

abbrev Location := StorePath

structure Disk where
  nodes : PathMap Disk.Node
  files : Array File
  here : Location
  clock : Time

inductive Spot where
  | taken (location : Location) (node : Disk.Node)
  | free (directory : Location) (name : String)
deriving DecidableEq, Repr

def Spot.node : Spot → Except HostError Disk.Node
  | .taken _ node => .ok node
  | .free .. => .error .notFound

inductive Kind where
  | directory
  | file
  | link
deriving DecidableEq, Repr

structure Metadata where
  kind : Kind
  length : Nat
  modified : Time
deriving DecidableEq, Repr

namespace Disk

def empty (clock : Time) : Disk where
  nodes := (∅ : PathMap Node).insert [] (.directory clock)
  files := #[]
  here := []
  clock := clock

def maxName : Nat := 255

/-- The text of a path, and the target of a link, is shorter than this, in bytes. -/
def maxPath : Nat := 4096

def maxLinks : Nat := 40

structure LastName where
  follow : Bool
  directory : Bool
  /-- A file is made where there is none. It cannot be made before a slash. -/
  creates : Bool

def start (disk : Disk) (path : String) : Location :=
  if HostPath.isAbsolute path then [] else disk.here

/--
Follows names from a directory. A link is handed to `expand`, with its target and the names that
are left.
-/
def follow (disk : Disk)
    (expand : Location → String → List String → LastName → Except HostError Spot)
    (last : LastName) (directory : Location) : List String → Except HostError Spot
  | [] =>
    match disk.nodes.get? directory with
    | some node => .ok (.taken directory node)
    | none => .error .notFound
  | "." :: rest => disk.follow expand last directory rest
  | ".." :: rest => disk.follow expand last directory.dropLast rest
  | name :: rest =>
    if rest = [] ∧ last.directory ∧ last.creates then
      .error .isDirectory
    else if maxName < name.utf8ByteSize then
      .error .nameTooLong
    else
      let location := directory ++ [name]
      match disk.nodes.get? location with
      | none => if rest = [] then .ok (.free directory name) else .error .notFound
      | some (.directory _) => disk.follow expand last location rest
      | some (.file id) =>
        if rest = [] ∧ ¬ last.directory then .ok (.taken location (.file id))
        else .error .notDirectory
      | some (.link target modified) =>
        if rest = [] ∧ ¬ last.follow ∧ ¬ last.directory then
          .ok (.taken location (.link target modified))
        else
          expand directory target rest last

def followLinks (disk : Disk) :
    (links : Nat) → LastName → Location → List String → Except HostError Spot
  | 0 => disk.follow fun _ _ _ _ => .error .tooManyLinks
  | links + 1 => disk.follow fun directory target rest last =>
    let first := if HostPath.isAbsolute target then [] else directory
    let ends := rest = [] && HostPath.endsInSlash target
    disk.followLinks links { last with directory := last.directory || ends } first
      (names target ++ rest)

def checkText (text : String) : Except HostError Unit :=
  if '\x00' ∈ text.toList then .error .zeroInName
  else if text = "" then .error .notFound
  else if maxPath ≤ text.utf8ByteSize then .error .nameTooLong
  else .ok ()

def findWith (disk : Disk) (last : LastName) (path : String) : Except HostError Spot := do
  checkText path
  disk.followLinks maxLinks last (disk.start path) (names path)

def find (disk : Disk) (path : String) : Except HostError Spot :=
  disk.findWith ⟨true, HostPath.endsInSlash path, false⟩ path

def findEntry (disk : Disk) (path : String) : Except HostError Spot :=
  disk.findWith ⟨false, HostPath.endsInSlash path, false⟩ path

/-- Finds the place that a path names for a new entry, whether or not a slash ends it. -/
def findPlace (disk : Disk) (path : String) : Except HostError Spot :=
  disk.findWith ⟨false, false, false⟩ path

def findForFile (disk : Disk) (throughLinks : Bool) (path : String) : Except HostError Spot :=
  disk.findWith ⟨throughLinks, HostPath.endsInSlash path, true⟩ path

def describe (disk : Disk) : Node → Metadata
  | .directory modified => ⟨.directory, 0, modified⟩
  | .file id =>
    match disk.files[id]? with
    | some file => ⟨.file, file.data.size, file.modified⟩
    | none => ⟨.file, 0, disk.clock⟩
  | .link target modified => ⟨.link, target.utf8ByteSize, modified⟩

def metadata (disk : Disk) (path : String) : Except HostError Metadata := do
  return disk.describe (← (← disk.find path).node)

def entryMetadata (disk : Disk) (path : String) : Except HostError Metadata := do
  return disk.describe (← (← disk.findEntry path).node)

def isDirectory (disk : Disk) (path : String) : Bool :=
  match disk.metadata path with
  | .ok found => found.kind = .directory
  | .error _ => false

def contents (disk : Disk) (id : Nat) : ByteArray :=
  match disk.files[id]? with
  | some file => file.data
  | none => ByteArray.empty

def openForReading (disk : Disk) (path : String) : Except HostError Nat := do
  match ← (← disk.find path).node with
  | .file id => .ok id
  | _ => .error .isDirectory

def readFile (disk : Disk) (path : String) : Except HostError ByteArray := do
  return disk.contents (← disk.openForReading path)

def entriesIn (disk : Disk) (path : String) : Except HostError (List (String × Node)) := do
  match ← disk.find path with
  | .taken location (.directory _) =>
    return (disk.nodes.children location).map fun (key, node) => (key.getLast?.getD "", node)
  | .taken .. => .error .notDirectory
  | .free .. => .error .notFound

def readDirectory (disk : Disk) (path : String) : Except HostError (List (String × Metadata)) := do
  return (← disk.entriesIn path).map fun (name, node) => (name, disk.describe node)

end Disk

end LakeStore
