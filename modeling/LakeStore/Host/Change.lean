import LakeStore.Host.Disk
import LakeStore.Step

/-!
Changes to a disk: making directories, writing files, and removing entries. Each is one request to
the host that is done or refused as a whole, apart from `createDirectories`, which makes the
directories above its own one by one.
-/

namespace LakeStore.Disk

def asked {α : Type} (question : Disk → Except HostError α) : Step Disk HostError α := do
  Step.ofExcept (question (← get))

def addNode (disk : Disk) (location : Location) (node : Node) : Disk :=
  { disk with nodes := disk.nodes.insert location node }

def modifyFile (disk : Disk) (id : Nat) (change : File → File) : Disk :=
  { disk with files := disk.files.modify id change }

def addFile (disk : Disk) (location : Location) (file : File) : Disk :=
  { disk with files := disk.files.push file }.addNode location (.file disk.files.size)

def filter (disk : Disk) (keep : Location → Bool) : Disk :=
  { disk with nodes := disk.nodes.filter keep }

def cleared (disk : Disk) (directory : Location) : Disk :=
  disk.filter fun location => ¬ StorePath.Below directory location

def createFile (location : Location) : Step Disk HostError Nat := do
  let disk ← get
  set (disk.addFile location ⟨ByteArray.empty, disk.clock⟩)
  return disk.files.size

def createDirectory (path : String) : Step Disk HostError Unit := do
  match ← asked (·.findPlace path) with
  | .taken .. => throw .alreadyExists
  | .free directory name =>
    modify fun disk => disk.addNode (directory ++ [name]) (.directory disk.clock)

def createDirectories (path : String) : Step Disk HostError Unit :=
  go (path :: HostPath.parents path)
where
  go : List String → Step Disk HostError Unit
    | [] => throw .notFound
    | path :: above =>
      if path = "" then
        return
      else
        tryCatch (createDirectory path) fun error =>
          if error = .notFound then do
            go above
            tryCatch (createDirectory path) (unlessThere path)
          else
            unlessThere path error
  unlessThere (path : String) (error : HostError) : Step Disk HostError Unit := do
    unless (← get).isDirectory path do
      throw error

def createParents (path : String) : Step Disk HostError Unit :=
  match HostPath.parent? path with
  | some parent => createDirectories parent
  | none => return

/-- Opens a new file for writing. Whatever is at the path, even a link, is in the way. -/
def openNew (path : String) : Step Disk HostError Nat := do
  match ← asked (·.findForFile false path) with
  | .taken .. => throw .alreadyExists
  | .free directory name => createFile (directory ++ [name])

def openForWriting (path : String) : Step Disk HostError Nat := do
  match ← asked (·.findForFile true path) with
  | .taken _ (.file id) =>
    modify fun disk => disk.modifyFile id fun _ => ⟨ByteArray.empty, disk.clock⟩
    return id
  | .taken .. => throw .isDirectory
  | .free directory name => createFile (directory ++ [name])

def overwrite (old : ByteArray) (position : Nat) (data : ByteArray) : ByteArray :=
  old.extract 0 position ++ ByteArray.mk (Array.replicate (position - old.size) 0) ++ data
    ++ old.extract (position + data.size) old.size

def writeAt (id position : Nat) (data : ByteArray) : StateM Disk Unit :=
  modify fun disk => disk.modifyFile id fun file =>
    ⟨overwrite file.data position data, disk.clock⟩

def writeFile (path : String) (data : ByteArray) : Step Disk HostError Unit := do
  let id ← openForWriting path
  writeAt id 0 data

def copyFile (source target : String) : Step Disk HostError Unit := do
  let id ← asked (·.openForReading source)
  let copy ← openForWriting target
  writeAt copy 0 ((← get).contents id)

def removeFile (path : String) : Step Disk HostError Unit := do
  match ← asked (·.findEntry path) with
  | .taken _ (.directory _) => throw .isDirectory
  | .taken location _ => modify fun disk => { disk with nodes := disk.nodes.erase location }
  | .free .. => throw .notFound

def removeDirectory (path : String) : Step Disk HostError Unit := do
  match ← asked (·.findEntry path) with
  | .taken location (.directory _) =>
    unless ((← get).nodes.below location).isEmpty do
      throw .notEmpty
    modify fun disk => { disk with nodes := disk.nodes.erase location }
  | .taken .. => throw .notDirectory
  | .free .. => throw .notFound

/--
Removes a directory with all that it holds. The directory itself goes last, by its path: one that
led through what the directory held leads nowhere by then, and the empty directory stays. Of a link,
only the link itself goes.
-/
def removeTree (path : String) : Step Disk HostError Unit := do
  match ← asked (·.findEntry path) with
  | .taken location (.directory _) =>
    modify (·.cleared location)
    tryCatch (removeDirectory path) fun error => unless error = .notFound do throw error
  | .taken location (.link ..) =>
    modify fun disk => { disk with nodes := disk.nodes.erase location }
  | .taken .. => throw .notDirectory
  | .free .. => throw .notFound

def createLink (path target : String) : Step Disk HostError Unit := do
  Step.ofExcept (checkText target)
  match ← asked (·.findPlace path) with
  | .taken .. => throw .alreadyExists
  | .free directory name =>
    if HostPath.endsInSlash path then throw .notFound
    modify fun disk => disk.addNode (directory ++ [name]) (.link target disk.clock)

def setModified (path : String) (time : Time) : Step Disk HostError Unit := do
  match ← asked (·.find path) with
  | .taken location (.directory _) => modify (·.addNode location (.directory time))
  | .taken _ (.file id) => modify (·.modifyFile id fun file => { file with modified := time })
  | .taken location (.link target _) => modify (·.addNode location (.link target time))
  | .free .. => throw .notFound

end LakeStore.Disk
