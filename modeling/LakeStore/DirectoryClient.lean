import LakeStore.Host.Change
import LakeStore.Host.Walk
import LakeStore.Path.Target
import LakeStore.Store.Client

/-!
The client of a store that is a directory of the host. The path of an entry leads to it from there.
It has no `..` left when the host reads it, and leads out of the directory through a link alone.
-/

namespace LakeStore

structure DirectoryClient where
  account : String
  base : String
  disk : Disk

namespace DirectoryClient

def fullPath (client : DirectoryClient) (path : String) : String :=
  HostPath.below client.base (StorePath.ofString path)

def isRoot (client : DirectoryClient) (full : String) : Bool :=
  HostPath.components full = HostPath.components client.base

def onDisk {ε α : Type} (step : Step Disk ε α) : Step DirectoryClient ε α :=
  step.onPart (·.disk) fun client disk => { client with disk := disk }

def stat? (full : String) : ClientM DirectoryClient (Option Metadata) := do
  match (← get).disk.metadata full with
  | .ok found => return some found
  | .error .notFound => return none
  | .error cause => throw (.statRefused full cause)

def entryOf (fullName : String) (found : Metadata) : Entry :=
  if found.kind = .directory then
    ⟨fullName, .directory, some found.modified, 0⟩
  else
    ⟨fullName, .file, some found.modified, found.length⟩

structure Handle where
  id : Nat
  position : Nat

def openReader (path : String) : ClientM DirectoryClient Handle := do
  let client ← get
  let full := client.fullPath path
  if client.disk.isDirectory full then
    throw (.isDirectory path)
  let id ← (Step.ofExcept (client.disk.openForReading full)).mapError (.fileNotFound path ∘ some)
  return ⟨id, 0⟩

def createFile (path : String) (ifExists : IfExists) : ClientM DirectoryClient Handle := do
  let client ← get
  let full := client.fullPath path
  if client.disk.isDirectory full then
    throw (.directoryInTheWay path)
  onDisk <| (Disk.createParents full).mapError (.parentsRefused path)
  let opened := if ifExists = .fail then Disk.openNew full else Disk.openForWriting full
  let id ← onDisk <| opened.mapError (.createRefused path)
  return ⟨id, 0⟩

def remove (directory other : String → Step Disk HostError Unit) (path : String) :
    ClientM DirectoryClient Bool := do
  let client ← get
  let full := client.fullPath path
  if client.isRoot full then
    return false
  match ← stat? full with
  | none => return false
  | some found =>
    onDisk (if found.kind = .directory then directory full else other full).succeeds

def list (path : String) : ClientM DirectoryClient (List Entry) := do
  let client ← get
  let directory := normalize path
  let found ← (Step.ofExcept (client.disk.readDirectory (client.fullPath directory))).mapError
    (.listRefused directory)
  return found.map fun (name, found) => entryOf (joinRemote directory name) found

def copyFile (source target : String) : Step Disk FailureReason Unit := do
  (Disk.createParents target).mapError .parentRefused
  if (← get).isDirectory target then
    throw (.directoryInTheWay target)
  (Disk.copyFile source target).mapError (.copyRefused source target)

def copyItem (source target : String) (transfer : Transfer) : WalkItem → StateM Disk Transfer
  | .found names node => do
    let copy := HostPath.below target names
    match node with
    | .directory _ =>
      let result ← ((Disk.createDirectories copy).mapError .host).run
      return transfer.recordDirectory copy result
    | .file _ =>
      let result ← (copyFile (HostPath.below source names) copy).run
      return transfer.recordFile copy result
    | .link .. => return transfer
  | .failed names error =>
    let path := HostPath.below source names
    return transfer.recordFailure path (.walkRefused path error)

/-- Copies a file or a tree from one host path to another. Links are left out. -/
def copyTree (source target : String) : StateM Disk Transfer :=
  Disk.visitTree (copyItem source target) source {}

def upload (source path : String) : ClientM DirectoryClient Transfer := do
  let client ← get
  match client.disk.metadata source with
  | .error _ => throw (.localNotFound source)
  | .ok _ => onDisk (copyTree source (client.fullPath path))

/-- The store path of what goes to a place below `target` when `path` is carried to `target`. -/
def storePlace (path target place : String) : String :=
  match HostPath.relative? target place with
  | some below => joinRemote (normalize path) (HostPath.ofComponents below)
  | none => place

def download (path target : String) : ClientM DirectoryClient Transfer := do
  let source := (← get).fullPath path
  match ← stat? source with
  | none => throw (.remoteNotFound path)
  | some _ => return (← onDisk (copyTree source target)).mapPaths (storePlace path target)

instance : StoreClient DirectoryClient where
  Reader := Handle
  Writer := Handle
  account := account
  exists? path := return (← stat? ((← get).fullPath path)).isSome
  openReader := openReader
  createFile := createFile
  delete := remove Disk.removeDirectory Disk.removeFile
  createDirectory path := do
    let full := (← get).fullPath path
    onDisk (Disk.createDirectories full).succeeds
  deleteRecursive := remove Disk.removeTree Disk.removeFile
  entryAt? path := do
    return (← stat? ((← get).fullPath path)).map (entryOf (normalize path))
  list := list
  upload := upload
  download := download
  read handle count? := do
    let data := (← get).disk.contents handle.id
    let stop := match count? with
      | some count => data.size.min (handle.position + count)
      | none => data.size
    return (data.extract handle.position stop, { handle with position := handle.position.max stop })
  write handle data := do
    onDisk (Disk.writeAt handle.id handle.position data)
    return { handle with position := handle.position + data.size }

end DirectoryClient

end LakeStore
