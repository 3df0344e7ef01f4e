import LakeStore.Host.Error

/-!
The errors of store clients and of their streams. An error has a message of its own, and may have
causes, which are told one by one behind it.
-/

namespace LakeStore

/-- Why a call of a store client failed. Paths are given as they stand in the message. -/
inductive ClientError where
  | isDirectory (path : String)
  | fileNotFound (path : String) (cause : Option HostError)
  | directoryInTheWay (path : String)
  | alreadyExists (path : String)
  | parentIsFile (path parent : String)
  | parentsRefused (path : String) (cause : HostError)
  | createRefused (path : String) (cause : HostError)
  | statRefused (path : String) (cause : HostError)
  | listRefused (path : String) (cause : HostError)
  | notDirectory (path : String)
  | directoryNotFound (path : String)
  | localNotFound (path : String)
  | remoteNotFound (path : String)
  | foreign (message : String) (causes : List String)
deriving DecidableEq, Repr

namespace ClientError

def message : ClientError → String
  | isDirectory path => s!"Cannot open {path} for reading: it is a directory"
  | fileNotFound path _ => s!"File not found at path: {path}"
  | directoryInTheWay path => s!"Cannot create file {path}: a directory exists at that path"
  | alreadyExists path => s!"File already exists: {path}"
  | parentIsFile path parent => s!"Cannot create file {path}: parent {parent} is a file"
  | parentsRefused path _ => s!"Cannot create parent directories for {path}"
  | createRefused path _ => s!"Failed to create file {path}"
  | statRefused path _ => s!"Failed to stat {path}"
  | listRefused path _ => s!"Failed to read directory {path}"
  | notDirectory path => s!"Not a directory: {path}"
  | directoryNotFound path => s!"Directory not found: {path}"
  | localNotFound path => s!"Local path not found: {path}"
  | remoteNotFound path => s!"Remote path not found: {path}"
  | foreign message _ => message

def causes : ClientError → List String
  | fileNotFound _ cause => cause.toList.map HostError.message
  | parentsRefused _ cause => [cause.message]
  | createRefused _ cause => [cause.message]
  | statRefused _ cause => [cause.message]
  | listRefused _ cause => [cause.message]
  | foreign _ causes => causes
  | _ => []

end ClientError

inductive StreamError where
  | removed (path : String)
deriving DecidableEq, Repr

def StreamError.message : StreamError → String
  | .removed path => s!"{path} was removed while open for writing"

end LakeStore
