import LakeStore.Host.Disk

/-!
The changes that make one disk into another, in an order in which they can be carried out.
-/

namespace LakeStore.Disk

/-- A change to the entry at one location. Links are never made. -/
inductive Difference where
  | removed (location : Location) (isDirectory : Bool)
  | directoryAdded (location : Location)
  | fileWritten (location : Location) (data : ByteArray)

def sameFile (old new : Disk) (oldId newId : Nat) : Bool :=
  match old.files[oldId]?, new.files[newId]? with
  | some oldFile, some newFile =>
    oldFile.modified = newFile.modified && oldFile.data.data = newFile.data.data
  | _, _ => false

def removals (old new : Disk) : List Difference :=
  old.nodes.entries.reverse.filterMap fun (location, node) =>
    match node, new.nodes.get? location with
    | .directory _, some (.directory _) => none
    | .file _, some (.file _) => none
    | .link .., some (.link ..) => none
    | node, _ => some (.removed location node.isDirectory)

def additions (old new : Disk) : List Difference :=
  new.nodes.entries.filterMap fun (location, node) =>
    match old.nodes.get? location, node with
    | some (.directory _), .directory _ => none
    | _, .directory _ => some (.directoryAdded location)
    | some (.file oldId), .file newId =>
      if sameFile old new oldId newId then none
      else some (.fileWritten location (new.contents newId))
    | _, .file newId => some (.fileWritten location (new.contents newId))
    | _, .link .. => none

def differences (old new : Disk) : List Difference :=
  removals old new ++ additions old new

end LakeStore.Disk
