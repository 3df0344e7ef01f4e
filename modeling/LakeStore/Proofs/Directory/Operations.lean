import LakeStore.Proofs.Directory.Files
import LakeStore.Proofs.Directory.Listing
import LakeStore.Proofs.Directory.Removal
import LakeStore.Proofs.FileSystem.Reference

/-!
The operations of the file system on a store on the host. Each answers, and changes what the store
holds, as the file system apart from any client does, as long as the host takes the names.
-/

namespace LakeStore.DirectoryClient

open StorePath

structure Settled (account base : String) (location : Location) (client : DirectoryClient) :
    Prop where
  rooted : client.Rooted account location
  base : client.base = base
  alone : ∀ path, client.disk.Alone (location ++ path)

variable {client : DirectoryClient} {account base : String} {location : Location} {uri : RemoteUri}

theorem settled_of_empty (h : client.disk.WellFormed) {modified : Time}
    (hfind : client.disk.find client.base = .ok (.taken location (.directory modified)))
    (hempty : client.disk.nodes.below location = []) :
    client.Settled client.account client.base location := by
  have hrooted := rooted_of_empty h hfind hempty
  refine ⟨hrooted, rfl, ?_⟩
  intro path id other hone _
  have hfile : client.disk.contentsAt location path = some (.file (client.disk.contents id)) :=
    Disk.contentsAt_eq_file_iff.mpr ⟨id, hone, rfl⟩
  have hbelow : Below location (location ++ path) :=
    below_append (hrooted.path_ne_nil_of_file hfile)
  have hmem := (PathMap.mem_below_iff client.disk.nodes location _ _).mpr ⟨hbelow, hone⟩
  rw [hempty] at hmem
  cases hmem

def contentsAt (location : Location) (client : DirectoryClient) : Contents :=
  client.disk.contentsAt location

abbrev Performs (account base : String) (location : Location) (client : DirectoryClient)
    (operation : Operation) : Prop :=
  operation.Performs account (contentsAt location) (Settled account base location)
  Turn.onHost client

theorem Settled.of_growsTo (h : client.Settled account base location) {contents : Contents}
    {disk : Disk} (hdisk : client.disk.GrowsTo contents disk) :
    Settled account base location { client with disk := disk } :=
  ⟨h.rooted.of_grows hdisk.grows, h.base, fun path => hdisk.alone _ (h.alone path)⟩

theorem performs_of_refused (h : client.Settled account base location) {operation : Operation}
    (hrun : operation.run client = (none, client))
    (hperform : operation.perform account (contentsAt location client) =
      (none, contentsAt location client)) :
    Performs account base location client operation :=
  Operation.performs_of_run (Turn.onHost_of_failed _ _ _) hrun hperform h

theorem performs_create (h : client.Settled account base location)
    (haccepts : Accepts base (ofString uri.path)) (data : ByteArray) :
    Performs account base location client (.create uri data) := by
  have hrooted := h.rooted
  rw [← h.base] at haccepts
  by_cases hput : (client.disk.contentsAt location).CanPut (ofString uri.path)
  . obtain ⟨made, id, opened, hopens, hcreate⟩ :=
      hrooted.exists_createFile (h.alone _) haccepts hput
    obtain ⟨handle, new, hwrite, hnew⟩ := exists_written hopens client data
    have hcontents : new.contentsAt location =
        (client.disk.contentsAt location).put (ofString uri.path) data :=
      (hnew.contentsAt location).trans (Contents.put_under _ location (ofString uri.path) data)
    have hperform :
        (Operation.create uri data).perform account (client.disk.contentsAt location) = _ :=
      Operation.perform_create hput
    rw [← hcontents] at hperform
    have hrun : (Operation.create uri data).run client = _ :=
      Operation.run_create_of_ok hcreate hwrite
    exact Operation.performs_of_run rfl hrun hperform (h.of_growsTo hnew)
  . obtain ⟨error, hcreate⟩ := hrooted.createFile_refused haccepts hput
    have hrun : (Operation.create uri data).run client = _ := Operation.run_create_of_error hcreate
    exact performs_of_refused h hrun (Operation.perform_create_refused hput)

theorem performs_createDirectory (h : client.Settled account base location)
    (haccepts : Accepts base (ofString uri.path)) :
    Performs account base location client (.createDirectory uri) := by
  have hrooted := h.rooted
  rw [← h.base] at haccepts
  have harrives := hrooted.arrives (ofString_canonical uri.path) haccepts
  have habove : (client.disk.contentsAt []).CanPutDirectory (location ++ ofString uri.path) ↔
      (client.disk.contentsAt location).CanPutDirectory (ofString uri.path) :=
    Contents.canPutDirectory_under_iff hrooted.above_directory
  have houtcome := createDirectory_outcome uri.path client
  unfold fullPath at houtcome
  by_cases hput : (client.disk.contentsAt location).CanPutDirectory (ofString uri.path)
  . obtain ⟨new, hmade, hnew⟩ :=
      harrives.exists_createDirectories hrooted.wellFormed (habove.mpr hput)
    have hcontents : new.contentsAt location = (client.disk.contentsAt location).putDirectory
        (ofString uri.path) :=
      (hnew.contentsAt location).trans (Contents.putDirectory_under _ location (ofString uri.path))
    have hperform :
        (Operation.createDirectory uri).perform account (client.disk.contentsAt location) = _ :=
      Operation.perform_createDirectory hput
    rw [hmade] at houtcome
    rw [← hcontents] at hperform
    have hrun := Operation.run_createDirectory_of_ok houtcome
    exact Operation.performs_of_run rfl hrun hperform (h.of_growsTo hnew)
  . obtain ⟨error, hmade⟩ :=
      harrives.createDirectories_refused hrooted.wellFormed (habove.not.mpr hput)
    rw [hmade] at houtcome
    have hrun := Operation.run_createDirectory_of_ok houtcome
    exact performs_of_refused h hrun (Operation.perform_createDirectory_refused hput)

theorem performs_delete (h : client.Settled account base location)
    (haccepts : Accepts base (ofString uri.path)) :
    Performs account base location client (.delete uri) := by
  obtain ⟨hrooted, rfl, halone⟩ := h
  by_cases hdelete : (client.disk.contentsAt location).CanDelete (ofString uri.path)
  . have hremove := hrooted.delete_of_canDelete haccepts hdelete
    have hkept := keptOnDisk_rooted account location
    have hremoved :=
      hkept.remove hrooted Disk.removesOnly_removeDirectory Disk.removesOnly_removeFile uri.path
    rw [hremove] at hremoved
    have hperform : (Operation.delete uri).perform account (client.disk.contentsAt location) = _ :=
      Operation.perform_delete hdelete
    rw [Contents.without_of_canDelete hdelete, ← Disk.contentsAt_erase] at hperform
    have hrun : (Operation.delete uri).run client = _ := Operation.run_delete_of_ok hremove
    apply Operation.performs_of_run rfl hrun hperform
    exact ⟨hremoved, rfl, fun path => (halone path).filter _⟩
  . have hperform : (Operation.delete uri).perform account (contentsAt location client) = _ :=
      Operation.perform_delete_refused hdelete
    cases hrooted.delete_refused haccepts hdelete with
    | inl hremove =>
      have hrun : (Operation.delete uri).run client = _ := Operation.run_delete_of_ok hremove
      exact performs_of_refused ⟨hrooted, rfl, halone⟩ hrun hperform
    | inr herror =>
      obtain ⟨error, hremove⟩ := herror
      have hrun : (Operation.delete uri).run client = _ := Operation.run_delete_of_error hremove
      exact performs_of_refused ⟨hrooted, rfl, halone⟩ hrun hperform

theorem performs_deleteDirectory (h : client.Settled account base location)
    (haccepts : Accepts base (ofString uri.path)) :
    Performs account base location client (.deleteDirectory uri) := by
  obtain ⟨hrooted, rfl, halone⟩ := h
  by_cases hdirectory : client.disk.contentsAt location (ofString uri.path) = some .directory
  . obtain ⟨modified, hentry⟩ := hrooted.entryAt?_directory haccepts hdirectory
    by_cases hroot : ofString uri.path = []
    . have hperform :
          (Operation.deleteDirectory uri).perform account (contentsAt location client) = _ :=
        Operation.perform_deleteDirectory_root hroot
      have hremove :
          (StoreClient.deleteRecursive uri.path : ClientM DirectoryClient Bool).outcome client =
            (.ok false, client) := remove_root ((hrooted.isRoot_iff uri.path).mpr hroot)
      have hrun := Operation.run_deleteDirectory_of_directory hentry rfl hremove
      exact performs_of_refused ⟨hrooted, rfl, halone⟩ hrun hperform
    . have hremove := hrooted.removeTree_outcome hroot haccepts hdirectory
      have hkept := keptOnDisk_rooted account location
      have hremoved :=
        hkept.remove hrooted Disk.removesOnly_removeTree Disk.removesOnly_removeFile uri.path
      rw [hremove] at hremoved
      have hperform :
          (Operation.deleteDirectory uri).perform account (client.disk.contentsAt location) = _ :=
        Operation.perform_deleteDirectory hroot hdirectory
      rw [← Disk.contentsAt_eraseFrom] at hperform
      have hrun := Operation.run_deleteDirectory_of_directory hentry rfl hremove
      apply Operation.performs_of_run rfl hrun hperform
      exact ⟨hremoved, rfl, fun path => (halone path).filter _⟩
  . have hperform :
        (Operation.deleteDirectory uri).perform account (contentsAt location client) = _ :=
      Operation.perform_deleteDirectory_refused hdirectory
    cases hrooted.entryAt?_not_directory haccepts hdirectory with
    | inl hother =>
      obtain ⟨found?, hentry, hprobe⟩ := hother
      have hrun := Operation.run_deleteDirectory_of_not_directory hentry hprobe
      exact performs_of_refused ⟨hrooted, rfl, halone⟩ hrun hperform
    | inr herror =>
      obtain ⟨error, hentry⟩ := herror
      have hrun := Operation.run_deleteDirectory_of_error hentry
      exact performs_of_refused ⟨hrooted, rfl, halone⟩ hrun hperform

theorem performs_exists? (h : client.Settled account base location)
    (haccepts : Accepts base (ofString uri.path)) :
    Performs account base location client (.exists? uri) := by
  obtain ⟨hrooted, rfl, halone⟩ := h
  have hpath := ofString_canonical uri.path
  have houtcome := exists?_outcome uri.path client
  unfold fullPath at houtcome
  have hperform : (Operation.exists? uri).perform account (contentsAt location client) =
      (some (.found (client.disk.contentsAt location (ofString uri.path)).isSome),
        contentsAt location client) := rfl
  by_cases hfile : (client.disk.contentsAt location).FileAbove (ofString uri.path)
  . rw [hrooted.described_below_file hpath haccepts hfile] at houtcome
    have hrun := Operation.run_exists?_of_error houtcome
    exact Operation.performs_of_run (if_pos hfile) hrun hperform ⟨hrooted, rfl, halone⟩
  . have hdescribed : ∃ found?,
        client.described (HostPath.below client.base (ofString uri.path)) = .ok found? ∧
          found?.isSome = (client.disk.contentsAt location (ofString uri.path)).isSome := by
      rcases hrooted.contents_wellFormed.content_cases (ofString uri.path) with
        hdirectory | ⟨data, hdata⟩ | hnone
      . obtain ⟨modified, hdescribed⟩ := hrooted.described_directory hpath haccepts hdirectory
        exact ⟨_, hdescribed, by rw [hdirectory]; rfl⟩
      . obtain ⟨modified, hdescribed⟩ := hrooted.described_file hpath haccepts hdata
        exact ⟨_, hdescribed, by rw [hdata]; rfl⟩
      . exact ⟨_, hrooted.described_missing hpath haccepts hnone hfile, by rw [hnone]; rfl⟩
    obtain ⟨found?, hdescribed, hsame⟩ := hdescribed
    rw [hdescribed] at houtcome
    have hrun := Operation.run_exists?_of_ok houtcome
    rw [hsame] at hrun
    exact Operation.performs_of_run (if_neg hfile) hrun hperform ⟨hrooted, rfl, halone⟩

theorem performs_read (h : client.Settled account base location)
    (haccepts : Accepts base (ofString uri.path)) :
    Performs account base location client (.read uri) := by
  obtain ⟨hrooted, rfl, halone⟩ := h
  by_cases hfile : ∃ data, client.disk.contentsAt location (ofString uri.path) = some (.file data)
  . obtain ⟨data, hfile⟩ := hfile
    obtain ⟨id, hopen, hdata⟩ := hrooted.openReader_file haccepts hfile
    have hread : (StoreClient.read (⟨id, 0⟩ : Handle) none : StateM DirectoryClient _).run client =
        ((data, ⟨id, data.size⟩), client) := by
      rw [← hdata]
      change (((client.disk.contents id).extract 0 (client.disk.contents id).size,
        Handle.mk id (max 0 (client.disk.contents id).size)), client) = _
      rw [ByteArray.extract_zero_size, Nat.zero_max]
    have hrun : (Operation.read uri).run client = _ := Operation.run_read_of_ok hopen hread
    exact Operation.performs_of_run rfl hrun (Operation.perform_read_of_file hfile)
      ⟨hrooted, rfl, halone⟩
  . rw [not_exists] at hfile
    obtain ⟨error, hopen⟩ := hrooted.openReader_refused haccepts hfile
    have hrun : (Operation.read uri).run client = _ := Operation.run_read_of_error hopen
    exact performs_of_refused ⟨hrooted, rfl, halone⟩ hrun (Operation.perform_read_of_not_file hfile)

theorem performs_children (h : client.Settled account base location)
    (haccepts : Accepts base (ofString uri.path)) :
    Performs account base location client (.children uri) := by
  obtain ⟨hrooted, rfl, halone⟩ := h
  by_cases hdirectory : client.disk.contentsAt location (ofString uri.path) = some .directory
  . have hperform : (Operation.children uri).perform account (contentsAt location client) = _ :=
      if_pos hdirectory
    obtain ⟨modified, hentry⟩ := hrooted.entryAt?_directory haccepts hdirectory
    have hrun :=
      Operation.run_children_of_directory hentry rfl (hrooted.list_outcome haccepts hdirectory)
    have haccount : StoreClient.account client = account := hrooted.account
    simp only [haccount, hrooted.mem_children_all (ofString_canonical uri.path)] at hrun
    exact Operation.performs_of_run rfl hrun hperform ⟨hrooted, rfl, halone⟩
  . have hperform : (Operation.children uri).perform account (contentsAt location client) = _ :=
      Operation.perform_children_refused hdirectory
    cases hrooted.entryAt?_not_directory haccepts hdirectory with
    | inl hother =>
      obtain ⟨found?, hentry, hprobe⟩ := hother
      have hrun := Operation.run_children_of_not_directory hentry hprobe
      exact performs_of_refused ⟨hrooted, rfl, halone⟩ hrun hperform
    | inr herror =>
      obtain ⟨error, hentry⟩ := herror
      have hrun := Operation.run_children_of_error hentry
      exact performs_of_refused ⟨hrooted, rfl, halone⟩ hrun hperform

theorem performs_status (h : client.Settled account base location)
    (haccepts : Accepts base (ofString uri.path)) :
    Performs account base location client (.status uri) := by
  obtain ⟨hrooted, rfl, halone⟩ := h
  cases hcontent : client.disk.contentsAt location (ofString uri.path) with
  | none =>
    have hperform : (Operation.status uri).perform account (contentsAt location client) = _ :=
      Operation.perform_status_of_none hcontent
    cases hrooted.entryAt?_none haccepts hcontent with
    | inl hentry =>
      have hrun := Operation.run_status_of_ok hentry
      exact performs_of_refused ⟨hrooted, rfl, halone⟩ hrun hperform
    | inr herror =>
      obtain ⟨error, hentry⟩ := herror
      have hrun := Operation.run_status_of_error hentry
      exact performs_of_refused ⟨hrooted, rfl, halone⟩ hrun hperform
  | some content =>
    cases content with
    | directory =>
      obtain ⟨modified, hentry⟩ := hrooted.entryAt?_directory haccepts hcontent
      have hrun := Operation.run_status_of_ok hentry
      have hperform : (Operation.status uri).perform account (contentsAt location client) = _ :=
        Operation.perform_status_of_directory hcontent
      exact Operation.performs_of_run rfl hrun hperform ⟨hrooted, rfl, halone⟩
    | file data =>
      obtain ⟨modified, hentry⟩ := hrooted.entryAt?_file haccepts hcontent
      have hrun := Operation.run_status_of_ok hentry
      have hperform : (Operation.status uri).perform account (contentsAt location client) = _ :=
        Operation.perform_status_of_file hcontent
      exact Operation.performs_of_run rfl hrun hperform ⟨hrooted, rfl, halone⟩
    | link target => exact absurd hcontent (hrooted.contents_wellFormed.noLink _ target)

theorem performs (h : client.Settled account base location) {operation : Operation}
    (haccepts : Accepts base operation.path) : Performs account base location client operation := by
  cases operation with
  | create uri data => exact performs_create h haccepts data
  | delete uri => exact performs_delete h haccepts
  | createDirectory uri => exact performs_createDirectory h haccepts
  | deleteDirectory uri => exact performs_deleteDirectory h haccepts
  | read uri => exact performs_read h haccepts
  | exists? uri => exact performs_exists? h haccepts
  | children uri => exact performs_children h haccepts
  | status uri => exact performs_status h haccepts

end LakeStore.DirectoryClient
