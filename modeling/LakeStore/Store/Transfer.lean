import LakeStore.Store.Error

/-!
The outcome of a transfer of many entries: a transfer goes on when an entry fails, and keeps a
record of the failure.
-/

namespace LakeStore

inductive FailureReason where
  | fileInTheWay
  | client (error : ClientError)
  | host (error : HostError)
  | parentRefused (error : HostError)
  | writeRefused (target : String) (error : HostError)
  | copyRefused (source target : String) (error : HostError)
  | directoryInTheWay (target : String)
  | walkRefused (path : String) (error : HostError)
  | foreign (text : String)
deriving DecidableEq, Repr

def FailureReason.message : FailureReason → String
  | .fileInTheWay => "directory collides with an existing file"
  | .client error => error.message
  | .host error => error.message
  | .parentRefused error => s!"Failed to create parent directory: {error.message}"
  | .writeRefused target error => s!"Failed to write {target}: {error.message}"
  | .copyRefused source target error => s!"Failed to copy {source} to {target}: {error.message}"
  | .directoryInTheWay target => s!"A directory exists at {target}"
  | .walkRefused path error => s!"IO error for operation on {path}: {error.message}"
  | .foreign text => text

structure Failure where
  path : String
  reason : FailureReason
deriving DecidableEq, Repr

structure Transfer where
  transferred : Nat := 0
  failed : List Failure := []
deriving DecidableEq, Repr

namespace Transfer

def recordSuccess (transfer : Transfer) : Transfer :=
  { transfer with transferred := transfer.transferred + 1 }

def recordFailure (transfer : Transfer) (path : String) (reason : FailureReason) : Transfer :=
  { transfer with failed := transfer.failed ++ [⟨path, reason⟩] }

def recordFile (transfer : Transfer) (path : String) : Except FailureReason Unit → Transfer
  | .ok _ => transfer.recordSuccess
  | .error reason => transfer.recordFailure path reason

/-- Records how it went with a directory, which is not counted when it went well. -/
def recordDirectory (transfer : Transfer) (path : String) : Except FailureReason Unit → Transfer
  | .ok _ => transfer
  | .error reason => transfer.recordFailure path reason

def mapPaths (place : String → String) (transfer : Transfer) : Transfer :=
  { transfer with
    failed := transfer.failed.map fun failure => { failure with path := place failure.path } }

def isComplete (transfer : Transfer) : Bool :=
  transfer.failed.isEmpty

end Transfer

end LakeStore
