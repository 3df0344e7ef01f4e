import LakeStore.Command.Run
import LakeStore.Host.Difference

/-!
The program as it runs on a host. The entries that a command can reach are read into a disk, the
command is carried out on it, and what it changed is written to the host.
-/

namespace LakeStore.Host

def granted? {α : Type} (request : IO α) : IO (Option α) :=
  return (← request.toBaseIO).toOption

/-- The target that is read for a link to nothing. No entry of the host has this name. -/
def nowhere (location : Location) : String :=
  location.getLastD "" ++ "\x00"

/-- The path under which a file is written. Through a link to nothing, the host makes its target. -/
def writtenAt (location : Location) : String :=
  (location.text.dropEndWhile (· == '\x00')).toString

mutual

partial def readEntry (whole : Bool) (disk : Disk) (location : Location) : IO Disk := do
  let path := (← IO.currentDir) / location.text
  let some found ← granted? path.symlinkMetadata | return disk
  let modified : Time := ⟨found.modified.sec, found.modified.nsec.toNat⟩
  match found.type with
  | .dir =>
    let disk := disk.addNode location (.directory modified)
    if whole then
      let entries := (← granted? path.readDir).getD #[]
      entries.foldlM (fun disk entry => readEntry true disk (location ++ [entry.fileName])) disk
    else
      return disk
  | .file =>
    if disk.nodes.contains location then return disk
    let some data ← granted? (IO.FS.readBinFile path) | return disk
    return disk.addFile location ⟨data, modified⟩
  | .symlink =>
    if disk.nodes.contains location then return disk
    -- The host tells where a link leads, but not the text of its target.
    match ← path.metadata.toBaseIO with
    | .ok _ =>
      let target := (← IO.FS.realPath path).toString
      readPath (disk.addNode location (.link target modified)) target
    | .error (.noFileOrDirectory ..) =>
      return disk.addNode location (.link (nowhere location) modified)
    | .error _ =>
      -- What cannot be followed at all is kept as a link to itself.
      return disk.addNode location (.link (location.getLastD "") modified)
  | .other => return disk

partial def readPath (disk : Disk) (path : String) : IO Disk := do
  let location := StorePath.ofString ((← IO.currentDir) / path).toString
  let disk ← ([] :: location.ancestors).foldlM (readEntry false) disk
  readEntry true disk location

end

def readDisk (paths : List String) : IO Disk := do
  let here := StorePath.ofString (← IO.currentDir).toString
  paths.foldlM readPath { Disk.empty ⟨0, 0⟩ with here := here }

/-- The paths by which an invocation can reach entries, if its configuration file is read. -/
def reachablePaths (invocation : Invocation) (configPath : String) (disk : Disk) : List String :=
  let store := match Config.load disk configPath with
    | .ok config =>
      match config.store with
      | .directory root => [root]
      | .memory => []
    | .error _ => []
  let operand := match invocation.command with
    | .put source _ => [source]
    | .get _ target => [target]
    | _ => []
  configPath :: store ++ operand

def apply : Disk.Difference → IO Unit
  | .removed location isDirectory =>
    if isDirectory then IO.FS.removeDir location.text else IO.FS.removeFile location.text
  | .directoryAdded location => IO.FS.createDir location.text
  | .fileWritten location data => IO.FS.writeBinFile (writtenAt location) data

def run (arguments : List String) : IO (Except CommandError ByteArray) := do
  let environment? ← IO.getEnv "DATALAKEFS_CONFIG"
  match Invocation.parse arguments with
  | .error error => return .error (.usage error)
  | .ok invocation =>
    let configPath := invocation.configPath environment?
    let disk ← readDisk (reachablePaths invocation configPath (← readDisk [configPath]))
    let (result, changed) := (invocation.run environment?).outcome disk
    (disk.differences changed).forM apply
    return result

end LakeStore.Host

def main (arguments : List String) : IO UInt32 := do
  match ← LakeStore.Host.run arguments with
  | .ok printed =>
    (← IO.getStdout).write printed
    return 0
  | .error error =>
    IO.eprintln s!"Error: {error.report}"
    return 1
