import LakeStore.Host.Change
import LakeStore.Host.Walk
import LakeStore.Memory.Tree
import LakeStore.Path.Target
import LakeStore.Store.Client

/-!
The client of a store that is kept in memory, next to the disk with which it exchanges files.
-/

namespace LakeStore

structure MemoryClient where
  account : String
  tree : Memory.Tree
  disk : Disk

namespace MemoryClient

open Memory

def new (account : String) (disk : Disk) : MemoryClient :=
  ⟨account, Tree.empty disk.clock, disk⟩

def onTree {ε α : Type} (step : Time → Step Tree ε α) : Step MemoryClient ε α := do
  let now := (← get).disk.clock
  (step now).onPart (·.tree) fun client tree => { client with tree := tree }

def onDisk {ε α : Type} (step : Step Disk ε α) : Step MemoryClient ε α :=
  step.onPart (·.disk) fun client disk => { client with disk := disk }

def localEntryOf? (disk : Disk) (source : String) : WalkItem → Option LocalEntry
  | .found names (.directory _) => some (.directory names)
  | .found names (.file _) =>
    let path := HostPath.below source names
    match disk.readFile path with
    | .ok data => some (.file names data)
    | .error cause => some (.unread path (.host cause))
  | .found _ (.link ..) => none
  | .failed names error =>
    let path := HostPath.below source names
    some (.unread path (.walkRefused path error))

/--
The local files and directories that an upload carries. A path that leads through a link to a file
stands for that file.
-/
def localEntries (disk : Disk) (source : String) : Except HostError (List LocalEntry) := do
  match ← (← disk.find source).node with
  | .file id => return [.file [] (disk.contents id)]
  | _ => return (disk.walk source).filterMap (localEntryOf? disk source)

def upload (source path : String) : ClientM MemoryClient Transfer := do
  match localEntries (← get).disk source with
  | .error cause => throw (.statRefused source cause)
  | .ok entries => onTree fun now => Tree.upload now (.ofString path) entries

def writeLocal (target : String) (data : ByteArray) : Step Disk FailureReason Unit := do
  (Disk.createParents target).mapError .parentRefused
  (Disk.writeFile target data).mapError (.writeRefused target)

def downloadEntry (root : StorePath) (target : String) (transfer : Transfer) :
    StorePath × Option ByteArray → StateM Disk Transfer
  | (path, data?) => do
    let place := localTarget target root.text path.text
    match data? with
    | some data => return transfer.recordFile path.text (← (writeLocal place data).run)
    | none =>
      let result ← ((Disk.createDirectories place).mapError .host).run
      return transfer.recordDirectory path.text result

def downloadEntries (root : StorePath) (target : String)
    (entries : List (StorePath × Option ByteArray)) : StateM Disk Transfer :=
  entries.foldlM (downloadEntry root target) {}

def download (path target : String) : ClientM MemoryClient Transfer := do
  let root := StorePath.ofString path
  match Tree.snapshot? (← get).tree root with
  | none => throw (.remoteNotFound root.text)
  | some entries => onDisk (downloadEntries root target entries)

structure Reader where
  left : ByteArray

/-- A writer knows no more than the path it was opened for. -/
structure Writer where
  path : StorePath

instance : StoreClient MemoryClient where
  Reader := Reader
  Writer := Writer
  account := account
  exists? path := return (← get).tree.contains (.ofString path)
  openReader path := onTree fun _ => return ⟨← Tree.read (.ofString path)⟩
  createFile path ifExists := do
    let path := StorePath.ofString path
    onTree fun now => Tree.putFile now path ByteArray.empty ifExists
    return ⟨path⟩
  delete path := onTree fun _ => Tree.delete (.ofString path)
  createDirectory path := onTree fun now => Tree.createDirectory now (.ofString path)
  deleteRecursive path := onTree fun _ => Tree.deleteRecursive (.ofString path)
  entryAt? path := return Tree.entryAt? (← get).tree (.ofString path)
  list path := onTree fun _ => Tree.list (.ofString path)
  upload := upload
  download := download
  read reader count? :=
    let size := reader.left.size
    let count := (count?.getD size).min size
    return (reader.left.extract 0 count, ⟨reader.left.extract count size⟩)
  write writer data := do
    onTree fun now => Tree.append now writer.path data
    return writer

def markPendingDelete (path : String) : ClientM MemoryClient Bool :=
  onTree fun _ => Tree.markPendingDelete (.ofString path)

end MemoryClient

end LakeStore
