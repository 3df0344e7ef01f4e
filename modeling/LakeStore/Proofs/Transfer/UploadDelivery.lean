import LakeStore.Proofs.Directory.Transfers
import LakeStore.Proofs.Transfer.Carrying
import LakeStore.Proofs.Transfer.Upload

/-!
An upload is a delivery to the store, whichever client keeps it. Both clients carry what a walk
tells of the local path, but a path to a file stands for the file itself to the client in memory.
-/

namespace LakeStore

open StorePath

namespace Memory

variable {before : Tree} {root : StorePath} {cargo : Cargo} {cargoes : List Cargo}
  {transfer : Transfer}

namespace Tree

theorem uploadEntry_of_admits (h : before.contents.WellFormed) (hpath : (root ++ cargo.1).Canonical)
    (hadmits : before.contents.Admits root cargo) (now : Time) (transfer : Transfer) :
    ∃ stored, (uploadEntry now root transfer (.ofCargo cargo)).run before =
        (transfer.recordCargo (root ++ cargo.1).text cargo (.ok ()), stored) ∧
      stored.contents = before.contents.lay root cargo ∧ stored.contents.WellFormed := by
  obtain ⟨path, data?⟩ := cargo
  cases data? with
  | none =>
    obtain ⟨stored, hrun, hstored⟩ := createDirectory_of_canPut h hadmits now
    refine ⟨stored, ?_, hstored, ?_⟩
    . unfold uploadEntry
      dsimp only [LocalEntry.ofCargo]
      rw [Step.run_bind, hrun]
      rfl
    . rw [hstored]
      exact h.putDirectory hpath
  | some data =>
    have hrefusal := (putRefusal?_eq_none_iff h .overwrite).mpr ⟨hadmits, by simp⟩
    have hrun := putFile_outcome now (root ++ path) data .overwrite before
    rw [hrefusal] at hrun
    refine ⟨_, ?_, contents_putFile h hadmits now data, ?_⟩
    . unfold uploadEntry
      dsimp only [LocalEntry.ofCargo]
      rw [Step.run_bind_pure, Step.run_run, Step.outcome_mapError_ok hrun]
      rfl
    . rw [contents_putFile h hadmits]
      exact h.put hpath hadmits.1 data

theorem uploadEntry_of_not_admits (h : before.contents.WellFormed)
    (hadmits : ¬ before.contents.Admits root cargo) (now : Time) (transfer : Transfer) :
    ∃ reason, (uploadEntry now root transfer (.ofCargo cargo)).run before =
      (transfer.recordCargo (root ++ cargo.1).text cargo (.error reason), before) := by
  obtain ⟨path, data?⟩ := cargo
  cases data? with
  | none =>
    refine ⟨.fileInTheWay, ?_⟩
    unfold uploadEntry
    dsimp only [LocalEntry.ofCargo]
    rw [Step.run_bind, createDirectory_of_not_canPut h hadmits now]
    rfl
  | some data =>
    have hrun := putFile_outcome now (root ++ path) data .overwrite before
    cases hrefusal : before.putRefusal? (root ++ path) .overwrite with
    | none => exact absurd ((putRefusal?_eq_none_iff h .overwrite).mp hrefusal).1 hadmits
    | some error =>
      rw [hrefusal] at hrun
      refine ⟨.client error, ?_⟩
      unfold uploadEntry
      dsimp only [LocalEntry.ofCargo]
      rw [Step.run_bind_pure, Step.run_run, Step.outcome_mapError_error hrun]
      rfl

theorem upload_delivers (h : before.contents.WellFormed) (hroot : root.Canonical)
    (hcargoes : ∀ cargo ∈ cargoes, cargo.1.Canonical) (now : Time) :
    ∃ transfer stored, (upload now root (cargoes.map .ofCargo)).run before = (transfer, stored) ∧
      (before.contents.deliver root cargoes).Reported (fun path => (root ++ path).text) transfer ∧
      stored.contents = (before.contents.deliver root cargoes).contents ∧
      stored.contents.WellFormed := by
  unfold upload
  induction cargoes using List.reverseRecOn with
  | nil => exact ⟨{}, before, rfl, ⟨rfl, rfl⟩, rfl, h⟩
  | append_singleton cargoes cargo ih =>
    obtain ⟨transfer, stored, hrun, hreported, hstored, hwellFormed⟩ :=
      ih fun other hother => hcargoes other (List.mem_append_left _ hother)
    have hpath : (root ++ cargo.1).Canonical :=
      canonical_append.mpr ⟨hroot, hcargoes cargo (by simp)⟩
    rw [List.map_append, List.map_singleton, Step.run_foldlM_concat, hrun, Contents.deliver_concat]
    by_cases hadmits : stored.contents.Admits root cargo
    . obtain ⟨after, hentry, hafter, hafterWellFormed⟩ :=
        uploadEntry_of_admits hwellFormed hpath hadmits now transfer
      rw [hstored] at hadmits hafter
      refine ⟨_, after, hentry, hreported.next_of_admits hadmits, ?_, hafterWellFormed⟩
      rw [Contents.next_of_admits hadmits, hafter]
    . obtain ⟨reason, hentry⟩ := uploadEntry_of_not_admits hwellFormed hadmits now transfer
      rw [hstored] at hadmits
      refine ⟨_, stored, hentry, hreported.next_of_not_admits hadmits reason, ?_, hwellFormed⟩
      rw [Contents.next_of_not_admits hadmits, hstored]

end Tree

end Memory

namespace MemoryClient

open Memory

variable {disk : Disk} {source : String} {origin place : Location} {entry node : Disk.Node}

theorem Sound.upload_delivers {client : MemoryClient} {account path : String} {cargoes : List Cargo}
    (h : client.Sound account)
    (hentries : localEntries client.disk source = .ok (cargoes.map .ofCargo))
    (hcargoes : ∀ cargo ∈ cargoes, cargo.1.Canonical) :
    ∃ transfer stored, (upload source path).outcome client = (.ok transfer,
      { client with tree := stored }) ∧
      (client.tree.contents.deliver (ofString path) cargoes).Reported
      (fun rest => (ofString path ++ rest).text) transfer ∧
      stored.contents = (client.tree.contents.deliver (ofString path) cargoes).contents := by
  obtain ⟨transfer, stored, hrun, hreported, hstored, _⟩ :=
    Tree.upload_delivers h.tree (ofString_canonical path) hcargoes client.disk.clock
  exact ⟨transfer, stored, (uploads_of_run hrun).outcome source hentries, hreported, hstored⟩

end MemoryClient

namespace DirectoryClient

variable {client : DirectoryClient} {account source path : String}
  {location origin place : Location} {root : StorePath} {entry : Disk.Node} {tree : Contents}

theorem Rooted.hasWay (h : client.Rooted account location)
    (halone : ∀ rest, tree rest ≠ none → client.disk.Alone (location ++ (root ++ rest)))
    (hfits : ∀ rest, tree rest ≠ none → Accepts client.base (root ++ rest)) :
    client.disk.HasWay (HostPath.below client.base root) (location ++ root) tree := by
  constructor
  . intro rest hrest
    exact (hfits rest hrest).below
  . intro rest _
    rw [List.append_assoc]
    exact h.plain (root ++ rest)
  . intro rest data hfile
    rw [List.append_assoc]
    exact halone rest (by simp [hfile])

theorem Rooted.upload_delivers (h : client.Rooted account location)
    (hsource : client.disk.Source source origin)
    (hentry : client.disk.findEntry source = .ok (.taken place entry))
    (hapart : Disk.Apart origin (location ++ ofString path))
    (halone : ∀ rest, (client.disk.contentsAt origin).withoutLinks rest ≠ none →
      client.disk.Alone (location ++ (ofString path ++ rest)))
    (hfits : ∀ rest, (client.disk.contentsAt origin).withoutLinks rest ≠ none →
      Accepts client.base (ofString path ++ rest)) :
    let delivery :=
      (client.disk.contentsAt location).deliver (ofString path)
        (client.disk.cargoesFrom entry origin)
    ∃ transfer new, (upload source path).outcome client = (.ok transfer,
      { client with disk := new }) ∧
      delivery.Reported (HostPath.below (client.fullPath path)) transfer ∧
      client.disk.Grows new ∧ new.contentsAt location = delivery.contents := by
  intro delivery
  obtain ⟨node, hfind⟩ := hsource.found
  have hroot : client.disk.nodes.get? origin = some node := Disk.findWith_holds h.wellFormed hfind
  have haccepts : Accepts client.base (ofString path ++ []) := by
    apply hfits
    apply Disk.withoutLinks_ne_none (Disk.find_resolved h.wellFormed hfind)
    rw [List.append_nil]
    exact hroot
  rw [List.append_nil] at haccepts
  have hdelivered :
      Disk.Delivered client.disk (location ++ ofString path) (HostPath.below (client.fullPath path))
        (client.disk.cargoesFrom entry origin)
        ((copyTree source (client.fullPath path)).run client.disk).1
        ((copyTree source (client.fullPath path)).run client.disk).2 :=
    Disk.copyTree_delivers h.wellFormed hsource hentry
    (h.arrives (ofString_canonical path) haccepts) (h.hasWay halone hfits) hapart
  generalize hcopy : (copyTree source (client.fullPath path)).run client.disk = result at hdelivered
  obtain ⟨transfer, new⟩ := result
  have hdelivery : delivery = _ := Contents.deliver_under h.above_directory (ofString path)
    (client.disk.cargoesFrom entry origin)
  rw [hdelivery]
  exact ⟨transfer, new, upload_outcome hfind hcopy,
    ⟨hdelivered.reported.transferred, hdelivered.reported.failed⟩,
    hdelivered.growsTo.grows, hdelivered.growsTo.contentsAt location⟩

end DirectoryClient

section file

variable {contents : Contents} {root : StorePath}

theorem Contents.deliver_file_of_canPut (h : contents.CanPut root) (data : ByteArray) :
    contents.deliver root [([], some data)] = ⟨contents.put root data, 1, []⟩ := by
  have hadmits : contents.Admits root ([], some data) := by
    unfold Admits
    dsimp only
    rw [List.append_nil]
    exact h
  have hlay : contents.lay root ([], some data) = contents.put root data := by
    unfold lay
    dsimp only
    rw [List.append_nil]
  have hnext : Delivery.next root ⟨contents, 0, []⟩ ([], some data) = _ := next_of_admits hadmits
  rw [← hlay]
  exact hnext

theorem Contents.deliver_file_of_not_canPut (h : ¬ contents.CanPut root) (data : ByteArray) :
    contents.deliver root [([], some data)] = ⟨contents, 0, [[]]⟩ := by
  have hadmits : ¬ contents.Admits root ([], some data) := by
    unfold Admits
    dsimp only
    rw [List.append_nil]
    exact h
  have hnext : Delivery.next root ⟨contents, 0, []⟩ ([], some data) = _ :=
    next_of_not_admits hadmits
  exact hnext

end file

end LakeStore
