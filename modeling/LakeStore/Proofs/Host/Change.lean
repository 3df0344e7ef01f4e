import LakeStore.Host.Change
import LakeStore.Proofs.Host.Lookup

/-!
The requests to a disk, each with its outcome as one equation that follows from where the path
leads. A request that is refused leaves the disk as it was.
-/

namespace LakeStore.Disk

variable {α β : Type}

theorem createParents_of_parents {text parent : String} {above : List String}
    (h : HostPath.parents text = parent :: above) :
    createParents text = createDirectories parent := by
  unfold createParents HostPath.parent?
  rw [h]
  rfl

theorem outcome_asked_bind (question : Disk → Except HostError α) (next : α → Step Disk HostError β)
    (disk : Disk) :
    (asked question >>= next).outcome disk =
      match question disk with
      | .ok value => (next value).outcome disk
      | .error error => (.error error, disk) := by
  have hasked : (asked question).outcome disk = (question disk, disk) := rfl
  rw [Step.outcome_bind, hasked]
  cases question disk <;> rfl

theorem createDirectory_outcome (path : String) (disk : Disk) :
    (createDirectory path).outcome disk =
      match disk.findPlace path with
      | .ok (.free location name) =>
        (.ok (), disk.addNode (location ++ [name]) (.directory disk.clock))
      | .ok (.taken ..) => (.error .alreadyExists, disk)
      | .error error => (.error error, disk) := by
  unfold createDirectory
  rw [outcome_asked_bind]
  cases disk.findPlace path with
  | error error => rfl
  | ok spot => cases spot <;> rfl

theorem openNew_outcome (path : String) (disk : Disk) :
    (openNew path).outcome disk =
      match disk.findForFile false path with
      | .ok (.free location name) =>
        (.ok disk.files.size, disk.addFile (location ++ [name]) ⟨ByteArray.empty, disk.clock⟩)
      | .ok (.taken ..) => (.error .alreadyExists, disk)
      | .error error => (.error error, disk) := by
  unfold openNew
  rw [outcome_asked_bind]
  cases disk.findForFile false path with
  | error error => rfl
  | ok spot => cases spot <;> rfl

theorem openForWriting_outcome (path : String) (disk : Disk) :
    (openForWriting path).outcome disk =
      match disk.findForFile true path with
      | .ok (.free location name) =>
        (.ok disk.files.size, disk.addFile (location ++ [name]) ⟨ByteArray.empty, disk.clock⟩)
      | .ok (.taken _ (.file id)) =>
        (.ok id, disk.modifyFile id fun _ => ⟨ByteArray.empty, disk.clock⟩)
      | .ok (.taken ..) => (.error .isDirectory, disk)
      | .error error => (.error error, disk) := by
  unfold openForWriting
  rw [outcome_asked_bind]
  cases disk.findForFile true path with
  | error error => rfl
  | ok spot =>
    cases spot with
    | free location name => rfl
    | taken location node => cases node <;> rfl

theorem writeAt_run (id position : Nat) (data : ByteArray) (disk : Disk) :
    (writeAt id position data).run disk =
      ((), disk.modifyFile id fun file => ⟨overwrite file.data position data, disk.clock⟩) := rfl

theorem removeFile_outcome (path : String) (disk : Disk) :
    (removeFile path).outcome disk =
      match disk.findEntry path with
      | .ok (.free ..) => (.error .notFound, disk)
      | .ok (.taken _ (.directory _)) => (.error .isDirectory, disk)
      | .ok (.taken location _) => (.ok (), { disk with nodes := disk.nodes.erase location })
      | .error error => (.error error, disk) := by
  unfold removeFile
  rw [outcome_asked_bind]
  cases disk.findEntry path with
  | error error => rfl
  | ok spot =>
    cases spot with
    | free location name => rfl
    | taken location node => cases node <;> rfl

theorem removeDirectory_outcome (path : String) (disk : Disk) :
    (removeDirectory path).outcome disk =
      match disk.findEntry path with
      | .ok (.free ..) => (.error .notFound, disk)
      | .ok (.taken location (.directory _)) =>
        if (disk.nodes.below location).isEmpty then
          (.ok (), { disk with nodes := disk.nodes.erase location })
        else (.error .notEmpty, disk)
      | .ok (.taken ..) => (.error .notDirectory, disk)
      | .error error => (.error error, disk) := by
  unfold removeDirectory
  rw [outcome_asked_bind]
  cases disk.findEntry path with
  | error error => rfl
  | ok spot =>
    cases spot with
    | free location name => rfl
    | taken location node =>
      cases node with
      | directory modified =>
        dsimp only
        rw [Step.outcome_bind_ok (Step.outcome_get disk)]
        cases (disk.nodes.below location).isEmpty <;> rfl
      | file id => rfl
      | link target modified => rfl

theorem removeTree_outcome (path : String) (disk : Disk) :
    (removeTree path).outcome disk =
      match disk.findEntry path with
      | .ok (.free ..) => (.error .notFound, disk)
      | .ok (.taken location (.directory _)) =>
        match (removeDirectory path).outcome (disk.cleared location) with
        | (.ok (), changed) => (.ok (), changed)
        | (.error error, changed) => (if error = .notFound then .ok () else .error error, changed)
      | .ok (.taken location (.link ..)) =>
        (.ok (), { disk with nodes := disk.nodes.erase location })
      | .ok (.taken _ (.file _)) => (.error .notDirectory, disk)
      | .error error => (.error error, disk) := by
  unfold removeTree
  rw [outcome_asked_bind]
  cases disk.findEntry path with
  | error error => rfl
  | ok spot =>
    cases spot with
    | free location name => rfl
    | taken location node =>
      cases node with
      | file id => rfl
      | link target modified => rfl
      | directory modified =>
        dsimp only
        rw [Step.outcome_bind_ok (Step.outcome_modify _ disk), Step.outcome_tryCatch]
        split
        . next changed houtcome => rw [houtcome]
        . next error changed houtcome =>
          rw [houtcome]
          dsimp only
          split
          all_goals rfl

theorem unlessThere_outcome (path : String) (error : HostError) (disk : Disk) :
    (createDirectories.unlessThere path error).outcome disk =
      if disk.isDirectory path then (.ok (), disk) else (.error error, disk) := by
  unfold createDirectories.unlessThere
  rw [Step.outcome_bind_ok (Step.outcome_get disk)]
  cases disk.isDirectory path <;> rfl

section createDirectories

variable {disk changed : Disk} {path : String} {above : List String}

theorem go_of_taken {location : Location} {node : Node} (hne : path ≠ "")
    (hplace : disk.findPlace path = .ok (.taken location node)) :
    (createDirectories.go (path :: above)).outcome disk =
      if disk.isDirectory path then (.ok (), disk) else (.error .alreadyExists, disk) := by
  unfold createDirectories.go
  rw [if_neg hne, Step.outcome_tryCatch, createDirectory_outcome, hplace]
  dsimp only
  rw [if_neg (by simp), unlessThere_outcome]

theorem go_of_error {error : HostError} (hne : path ≠ "")
    (hplace : disk.findPlace path = .error error) (herror : error ≠ .notFound)
    (hdirectory : disk.isDirectory path = false) :
    (createDirectories.go (path :: above)).outcome disk = (.error error, disk) := by
  unfold createDirectories.go
  rw [if_neg hne, Step.outcome_tryCatch, createDirectory_outcome, hplace]
  dsimp only
  rw [if_neg herror, unlessThere_outcome, if_neg (by simp [hdirectory])]

theorem go_of_free {location : Location} {name : String} (hne : path ≠ "")
    (hplace : disk.findPlace path = .ok (.free location name)) :
    (createDirectories.go (path :: above)).outcome disk =
      (.ok (), disk.addNode (location ++ [name]) (.directory disk.clock)) := by
  unfold createDirectories.go
  rw [if_neg hne, Step.outcome_tryCatch, createDirectory_outcome, hplace]

theorem go_of_missing {location : Location} {name : String} (hne : path ≠ "")
    (hplace : disk.findPlace path = .error .notFound)
    (habove : (createDirectories.go above).outcome disk = (.ok (), changed))
    (hagain : changed.findPlace path = .ok (.free location name)) :
    (createDirectories.go (path :: above)).outcome disk =
      (.ok (), changed.addNode (location ++ [name]) (.directory changed.clock)) := by
  unfold createDirectories.go
  rw [if_neg hne, Step.outcome_tryCatch, createDirectory_outcome, hplace]
  dsimp only
  rw [if_pos rfl, Step.outcome_bind_ok habove, Step.outcome_tryCatch, createDirectory_outcome,
    hagain]

end createDirectories

end LakeStore.Disk
