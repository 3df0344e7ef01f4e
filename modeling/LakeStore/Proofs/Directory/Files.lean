import LakeStore.Proofs.Directory.Answers
import LakeStore.Proofs.Directory.Runs

/-!
Files are made, written and read in a store on the host. A new file is empty, and one in place of an
old file has the identity of that file. What is written to it is all that it holds then.
-/

namespace LakeStore

def Disk.openToCreate (ifExists : IfExists) (text : String) : Step Disk HostError Nat :=
  if ifExists = .fail then openNew text else openForWriting text

namespace DirectoryClient

open StorePath

variable {client : DirectoryClient} {account : String} {location : Location} {path : StorePath}

theorem onDisk_mapError {ε δ α : Type} (step : Step Disk ε α) (describe : ε → δ)
    (client : DirectoryClient) :
    (onDisk (step.mapError describe)).outcome client =
      ((step.outcome client.disk).1.mapError describe,
        { client with disk := (step.outcome client.disk).2 }) := rfl

theorem createFile_outcome (path : String) (ifExists : IfExists) (client : DirectoryClient) :
    (createFile path ifExists).outcome client =
      if client.disk.isDirectory (client.fullPath path) then (.error (.directoryInTheWay path),
        client)
      else match (Disk.createParents (client.fullPath path)).outcome client.disk with
        | (.error error, made) =>
          (.error (.parentsRefused path error), { client with disk := made })
        | (.ok _, made) =>
          match (Disk.openToCreate ifExists (client.fullPath path)).outcome made with
          | (.error error, opened) =>
            (.error (.createRefused path error), { client with disk := opened })
          | (.ok id, opened) => (.ok ⟨id, 0⟩, { client with disk := opened }) := by
  unfold createFile
  rw [Step.outcome_bind_ok (Step.outcome_get client)]
  dsimp only
  split
  . rfl
  . rw [Step.outcome_bind, onDisk_mapError]
    rcases (Disk.createParents (client.fullPath path)).outcome client.disk with ⟨error | _, made⟩
    . rfl
    . dsimp only [Except.mapError]
      rw [Step.outcome_bind, onDisk_mapError, Disk.openToCreate]
      dsimp only
      rcases (if ifExists = .fail then Disk.openNew (client.fullPath path)
        else Disk.openForWriting (client.fullPath path)).outcome made with ⟨error | id, opened⟩
      . rfl
      . rfl

theorem Rooted.reaches_of_not_directory (h : client.Rooted account location) {path : String}
    (haccepts : Accepts client.base (ofString path))
    (hnot : client.disk.contentsAt location (ofString path) ≠ some .directory) :
    client.disk.Reaches (client.fullPath path) location (ofString path) := by
  apply h.reaches (ofString_canonical path) _ haccepts
  intro hnil
  rw [hnil] at hnot
  exact hnot h.contents_wellFormed.root

theorem Rooted.exists_createFile (h : client.Rooted account location) {path : String}
    (halone : client.disk.Alone (location ++ ofString path))
    (haccepts : Accepts client.base (ofString path))
    (hput : (client.disk.contentsAt location).CanPut (ofString path)) :
    ∃ made id opened,
      client.disk.OpensAt (client.fullPath path) (location ++ ofString path) made id opened ∧
      (createFile path .overwrite).outcome client = (.ok ⟨id, 0⟩,
        { client with disk := opened }) := by
  have hreaches := h.reaches_of_not_directory haccepts hput.1
  have hwhole : (client.disk.contentsAt []).CanPut (location ++ ofString path) :=
    (Contents.canPut_under_iff h.above_directory).mpr hput
  obtain ⟨made, id, opened, hopens⟩ := hreaches.exists_opened h.wellFormed halone hwhole
  have hnot : client.disk.isDirectory (client.fullPath path) = false :=
    h.isDirectory_eq_false (ofString_canonical path) haccepts hput.1
  have hopening : (Disk.openToCreate .overwrite (client.fullPath path)).outcome made =
      (.ok id, opened) :=
    hopens.opens.opening
  refine ⟨made, id, opened, hopens, ?_⟩
  rw [createFile_outcome, hnot, if_neg (by simp), hopens.opens.parents]
  dsimp only
  rw [hopening]

theorem Rooted.createFile_refused (h : client.Rooted account location) {path : String}
    (haccepts : Accepts client.base (ofString path))
    (hput : ¬ (client.disk.contentsAt location).CanPut (ofString path)) :
    ∃ error, (createFile path .overwrite).outcome client = (.error error, client) := by
  rw [createFile_outcome]
  by_cases hthere : client.disk.contentsAt location (ofString path) = some .directory
  . have hdirectory : client.disk.isDirectory (client.fullPath path) :=
      (h.isDirectory_iff (ofString_canonical path) haccepts).mpr hthere
    rw [if_pos hdirectory]
    exact ⟨_, rfl⟩
  . have hnot : client.disk.isDirectory (client.fullPath path) = false :=
      h.isDirectory_eq_false (ofString_canonical path) haccepts hthere
    have hreaches := h.reaches_of_not_directory haccepts hthere
    have hwhole : ¬ (client.disk.contentsAt []).CanPut (location ++ ofString path) :=
      (Contents.canPut_under_iff h.above_directory).not.mpr hput
    rcases hreaches.not_canPut h.wellFormed hwhole with ⟨error, hparents⟩ | ⟨_, hfound⟩
    . rw [hnot, if_neg (by simp), hparents]
      exact ⟨_, rfl⟩
    . exact absurd hfound hthere

theorem write_outcome (handle : Handle) (data : ByteArray) (client : DirectoryClient) :
    (StoreClient.write handle data : Step DirectoryClient StreamError _).outcome client =
      (.ok ⟨handle.id, handle.position + data.size⟩,
        { client with
          disk := ((Disk.writeAt handle.id handle.position data).run client.disk).2 }) := rfl

theorem exists_written {disk made opened : Disk} {full : String} {place : Location} {id : Nat}
    (h : disk.OpensAt full place made id opened) (client : DirectoryClient) (data : ByteArray) :
    ∃ handle new,
      (StoreClient.writeAll (⟨id, 0⟩ : Handle) data : Step DirectoryClient StreamError _).outcome
        { client with disk := opened } = (.ok handle, { client with disk := new }) ∧
      disk.GrowsTo ((disk.contentsAt []).put place data) new := by
  unfold StoreClient.writeAll
  split
  . next hnone =>
    have hdata : data = ByteArray.empty := by
      rw [← ByteArray.size_eq_zero_iff]
      simpa [ByteArray.isEmpty] using hnone
    rw [hdata]
    exact ⟨_, opened, rfl, h.empty⟩
  . rw [write_outcome]
    exact ⟨_, _, rfl, h.written data⟩

theorem exists_openForReading_error {disk : Disk} {full : String} {error : HostError}
    (h : disk.metadata full = .error error) : ∃ error, disk.openForReading full = .error error := by
  unfold Disk.metadata at h
  unfold Disk.openForReading
  cases hfind : disk.find full with
  | error other => exact ⟨other, rfl⟩
  | ok spot =>
    rw [hfind] at h
    cases spot with
    | taken found node => cases h
    | free directory name => exact ⟨.notFound, rfl⟩

theorem Rooted.openReader_file (h : client.Rooted account location) {path : String}
    (haccepts : Accepts client.base (ofString path)) {data : ByteArray}
    (hfile : client.disk.contentsAt location (ofString path) = some (.file data)) :
    ∃ id, (openReader path).outcome client = (.ok ⟨id, 0⟩, client) ∧
    client.disk.contents id = data := by
  have hpath := ofString_canonical path
  obtain ⟨id, hnode, hdata⟩ := Disk.contentsAt_eq_file_iff.mp hfile
  have hisDirectory := h.isDirectory_eq_false hpath haccepts (by simp [hfile])
  have hopen := Disk.openForReading_of_find (h.find_file hpath haccepts hnode)
  refine ⟨id, ?_, hdata⟩
  unfold openReader
  rw [Step.outcome_bind_ok (Step.outcome_get client)]
  dsimp only
  unfold fullPath
  rw [hisDirectory, if_neg (by simp), Step.outcome_bind_pure, Step.outcome_mapError,
    Step.outcome_ofExcept, hopen]
  rfl

theorem Rooted.openReader_refused (h : client.Rooted account location) {path : String}
    (haccepts : Accepts client.base (ofString path))
    (hfile : ∀ data, client.disk.contentsAt location (ofString path) ≠ some (.file data)) :
    ∃ error, (openReader path).outcome client = (.error error, client) := by
  have hpath := ofString_canonical path
  unfold openReader
  rw [Step.outcome_bind_ok (Step.outcome_get client)]
  dsimp only
  unfold fullPath
  cases h.contents_wellFormed.content_cases (ofString path) with
  | inl hdirectory =>
    rw [(h.isDirectory_iff hpath haccepts).mpr hdirectory]
    exact ⟨_, rfl⟩
  | inr hother =>
    have hnone := hother.resolve_left (not_exists.mpr hfile)
    have hisDirectory := h.isDirectory_eq_false hpath haccepts (by simp [hnone])
    have hopen : ∃ error, client.disk.openForReading (HostPath.below client.base (ofString path)) =
        .error error := by
      cases hmetadata : client.disk.metadata (HostPath.below client.base (ofString path)) with
      | error error => exact exists_openForReading_error hmetadata
      | ok found =>
        have hdescribed := h.described_none hpath haccepts hnone
        unfold described at hdescribed
        rw [hmetadata] at hdescribed
        simp at hdescribed
    obtain ⟨error, hopen⟩ := hopen
    rw [hisDirectory, if_neg (by simp), Step.outcome_bind_pure, Step.outcome_mapError,
      Step.outcome_ofExcept, hopen]
    exact ⟨_, rfl⟩

end DirectoryClient

end LakeStore
