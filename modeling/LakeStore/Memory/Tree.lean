import LakeStore.PathMap
import LakeStore.Step
import LakeStore.Store.Entry
import LakeStore.Store.Transfer

/-!
The tree of a store that is kept in memory: a map from paths to files and directories. A new entry
brings the missing directories above it along. No step puts an entry below a file, or a file in the
place of a directory.
-/

namespace LakeStore.Memory

inductive Node where
  | directory (modified : Option Time)
  | file (data : ByteArray) (modified : Option Time)

namespace Node

def isDirectory : Node → Bool
  | directory _ => true
  | file .. => false

def withoutTime : Node → Node
  | directory _ => directory none
  | file data _ => file data none

def entry (path : StorePath) : Node → Entry
  | directory modified => ⟨path.text, .directory, modified, 0⟩
  | file data modified => ⟨path.text, .file, modified, data.size⟩

end Node

abbrev Tree := PathMap Node

inductive LocalEntry where
  | directory (names : List String)
  | file (names : List String) (data : ByteArray)
  | unread (path : String) (reason : FailureReason)

namespace Tree

def empty (now : Time) : Tree :=
  (∅ : PathMap Node).insert [] (.directory (some now))

def isFile (tree : Tree) (path : StorePath) : Bool :=
  (tree.get? path).any (!·.isDirectory)

def isDirectory (tree : Tree) (path : StorePath) : Bool :=
  (tree.get? path).any (·.isDirectory)

def fileAbove? (tree : Tree) (path : StorePath) : Option StorePath :=
  path.ancestors.find? tree.isFile

def addParents (tree : Tree) (now : Time) (path : StorePath) : Tree :=
  path.ancestors.foldl (·.insertIfNew · (.directory (some now))) tree

def makeParents (now : Time) (path : StorePath) : Step Tree ClientError Unit := do
  let tree ← get
  match fileAbove? tree path with
  | some parent => throw (.parentIsFile path.text parent.text)
  | none => set (addParents tree now path)

def putFile (now : Time) (path : StorePath) (data : ByteArray) (ifExists : IfExists) :
    Step Tree ClientError Unit := do
  match (← get).get? path with
  | some (.directory _) => throw (.directoryInTheWay path.text)
  | some (.file ..) => if ifExists = .fail then throw (.alreadyExists path.text)
  | none => pure ()
  makeParents now path
  modify (·.insert path (.file data (some now)))

/-- Writes at the end of the file that is at a path now, whoever made it. -/
def append (now : Time) (path : StorePath) (data : ByteArray) : Step Tree StreamError Unit := do
  match (← get).get? path with
  | some (.file old _) => modify (·.insert path (.file (old ++ data) (some now)))
  | _ => throw (.removed path.text)

def read (path : StorePath) : Step Tree ClientError ByteArray := do
  match (← get).get? path with
  | some (.file data _) => return data
  | some (.directory _) => throw (.isDirectory path.text)
  | none => throw (.fileNotFound path.text none)

def delete (path : StorePath) : StateM Tree Bool := do
  let tree ← get
  let removable := path ≠ [] && match tree.get? path with
    | none => false
    | some (.directory _) => (tree.below path).isEmpty
    | some (.file ..) => true
  if removable then
    set (tree.erase path)
  return removable

def deleteRecursive (path : StorePath) : StateM Tree Bool := do
  let tree ← get
  let removable := path ≠ [] && tree.contains path
  if removable then
    set (tree.eraseFrom path)
  return removable

def createDirectory (now : Time) (path : StorePath) : StateM Tree Bool := do
  match (← get).get? path with
  | some (.directory _) => return true
  | some (.file ..) => return false
  | none =>
    if ← (makeParents now path).succeeds then
      modify (·.insert path (.directory (some now)))
      return true
    else
      return false

def markPendingDelete (path : StorePath) : StateM Tree Bool := do
  match (← get).get? path with
  | some node =>
    modify (·.insert path node.withoutTime)
    return true
  | none => return false

def entryAt? (tree : Tree) (path : StorePath) : Option Entry :=
  (tree.get? path).map (·.entry path)

def list (path : StorePath) : Step Tree ClientError (List Entry) := do
  let tree ← get
  match tree.get? path with
  | some (.directory _) => return (tree.children path).map fun (key, node) => node.entry key
  | some (.file ..) => throw (.notDirectory path.text)
  | none => throw (.directoryNotFound path.text)

/--
Carries one local entry to its place below `root`, and records how it went. What could not be read
fails under its path on the host.
-/
def uploadEntry (now : Time) (root : StorePath) (transfer : Transfer) :
    LocalEntry → StateM Tree Transfer
  | .directory names => do
    let target := root ++ names
    if ← createDirectory now target then
      return transfer
    else
      return transfer.recordFailure target.text .fileInTheWay
  | .file names data => do
    let target := root ++ names
    let result ← ((putFile now target data .overwrite).mapError .client).run
    return transfer.recordFile target.text result
  | .unread path reason => return transfer.recordFailure path reason

def upload (now : Time) (root : StorePath) (entries : List LocalEntry) : StateM Tree Transfer :=
  entries.foldlM (uploadEntry now root) {}

def snapshot? (tree : Tree) (path : StorePath) : Option (List (StorePath × Option ByteArray)) := do
  let node ← tree.get? path
  return ((path, node) :: tree.below path).map fun (key, node) =>
    match node with
    | .directory _ => (key, none)
    | .file data _ => (key, some data)

end Tree

end LakeStore.Memory
