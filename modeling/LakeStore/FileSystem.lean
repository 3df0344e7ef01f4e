import LakeStore.Store.Client
import LakeStore.Uri

/-!
The file system over a store: entries are named by address, and a request that the store refuses is
an error. Its operations work over every client. Each makes at most two calls: those that need a
directory look the entry up first, and go on only when it is one.
-/

namespace LakeStore

inductive FsError where
  | invalidArgument (detail : String)
  | storeIo (op path reason : String)
  | unsupported (operation : String)
  | client (error : ClientError)
deriving DecidableEq, Repr

namespace FsError

def message : FsError → String
  | invalidArgument detail => s!"Invalid argument: {detail}"
  | storeIo op path reason => s!"Store I/O failure during {op} on {path}: {reason}"
  | unsupported operation => s!"Unsupported operation: {operation}"
  | client error => error.message

def causes : FsError → List String
  | client error => error.causes
  | _ => []

def isStoreIo : FsError → Bool
  | storeIo .. => true
  | _ => false

def isInvalidArgument : FsError → Bool
  | invalidArgument _ => true
  | _ => false

end FsError

inductive Refusal where
  | notDeleted
  | directoryNotCreated
  | directoryNotDeleted
  | notDirectory
  | noDirectory
  | noEntry
  | staleEntry
  | incompleteTransfer (failed : Nat)
deriving DecidableEq, Repr

def Refusal.message : Refusal → String
  | .notDeleted => "cannot delete directory/file"
  | .directoryNotCreated => "cannot create directory"
  | .directoryNotDeleted => "cannot delete directory"
  | .notDirectory => "not a directory"
  | .noDirectory => "directory does not exist"
  | .noEntry => "entry does not exist"
  | .staleEntry => "entry has no last modified time; it may have been deleted"
  | .incompleteTransfer failed => s!"{failed} entries did not get transferred correctly"

structure Probe where
  type? : Option EntryType
deriving DecidableEq, Repr

namespace Probe

def found (probe : Probe) : Bool :=
  probe.type?.isSome

def isDirectory (probe : Probe) : Bool :=
  probe.type? = some .directory

/-- An entry without a time of modification is being deleted and counts as absent. -/
def ofEntry : Option Entry → Probe
  | some entry => ⟨if entry.modified.isSome then some entry.type else none⟩
  | none => ⟨none⟩

end Probe

structure FileStatus where
  modified : Time
  length : Nat
deriving DecidableEq, Repr

structure Children where
  account : String
  left : List Entry
deriving DecidableEq, Repr

namespace Children

def length (children : Children) : Nat :=
  children.left.length

def uriOf (children : Children) (entry : Entry) : RemoteUri :=
  .ofPath children.account entry.fullName

def next? (children : Children) : Option (RemoteUri × Children) :=
  match children.left with
  | [] => none
  | entry :: left => some (children.uriOf entry, { children with left := left })

def all (children : Children) : List RemoteUri :=
  children.left.map children.uriOf

def take (children : Children) (count : Nat) : List RemoteUri × Children :=
  ((children.left.take count).map children.uriOf,
    { children with left := children.left.drop count })

end Children

abbrev FsM (σ : Type) := Step σ FsError

namespace FileSystem

open StoreClient

variable {σ : Type} [StoreClient σ]

def check (client : σ) : Except FsError Unit :=
  if account client = "" then
    .error (.invalidArgument "store client reports an empty account name")
  else
    .ok ()

def call {α : Type} (step : ClientM σ α) : FsM σ α :=
  step.mapError .client

def refuse {α : Type} (op : String) (uri : RemoteUri) (refusal : Refusal) : FsM σ α :=
  throw (.storeIo op uri.text refusal.message)

def probe (uri : RemoteUri) : FsM σ Probe := do
  return .ofEntry (← call (entryAt? uri.path))

def requireDirectory (op : String) (uri : RemoteUri) : FsM σ Unit := do
  let probe ← probe uri
  if probe.isDirectory then
    return
  refuse op uri (if probe.found then .notDirectory else .noDirectory)

def checkTransfer (op : String) (uri : RemoteUri) (transfer : Transfer) : FsM σ Unit := do
  unless transfer.isComplete do
    refuse op uri (.incompleteTransfer transfer.failed.length)

def openFile (uri : RemoteUri) : FsM σ (Reader σ) :=
  call (openReader uri.path)

def create (uri : RemoteUri) : FsM σ (Writer σ) :=
  call (createFile uri.path .overwrite)

def delete (uri : RemoteUri) : FsM σ Unit := do
  unless ← call (StoreClient.delete uri.path) do
    refuse "delete" uri .notDeleted

def exists? (uri : RemoteUri) : FsM σ Bool :=
  call (StoreClient.exists? uri.path)

def copy (_source _target : RemoteUri) : FsM σ Unit :=
  throw (.unsupported "remote-to-remote copy")

def copyToLocal (uri : RemoteUri) (target : String) : FsM σ Unit := do
  checkTransfer "copy_to_local" uri (← call (download uri.path target))

def copyFromLocal (source : String) (uri : RemoteUri) : FsM σ Unit := do
  checkTransfer "copy_from_local" uri (← call (upload source uri.path))

def createDirectory (uri : RemoteUri) : FsM σ Unit := do
  unless ← call (StoreClient.createDirectory uri.path) do
    refuse "create_directory" uri .directoryNotCreated

def deleteDirectory (uri : RemoteUri) : FsM σ Unit := do
  requireDirectory "delete_directory" uri
  unless ← call (deleteRecursive uri.path) do
    refuse "delete_directory" uri .directoryNotDeleted

def children (uri : RemoteUri) : FsM σ Children := do
  requireDirectory "get_children" uri
  let entries ← call (list uri.path)
  return ⟨account (← get), entries⟩

def parseUri (text : String) : Except FsError RemoteUri :=
  (RemoteUri.parse text).mapError fun error => .invalidArgument error.message

def uriOfPath (path? : Option String) : FsM σ RemoteUri := do
  match path? with
  | none => throw (.invalidArgument "Specified path is null")
  | some path => return .ofPath (account (← get)) path

def status (uri? : Option RemoteUri) : FsM σ FileStatus := do
  match uri? with
  | none => throw (.invalidArgument "Specified uri is null")
  | some uri =>
    match ← call (entryAt? uri.path) with
    | none => refuse "get_file_status" uri .noEntry
    | some entry =>
      match entry.modified with
      | none => refuse "get_file_status" uri .staleEntry
      | some modified => return ⟨modified, entry.length⟩

end FileSystem

end LakeStore
