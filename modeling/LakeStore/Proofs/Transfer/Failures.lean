import LakeStore.Proofs.Transfer.DownloadDelivery
import Mathlib.Data.List.Forall2

/-!
The paths under which a transfer records its failures. It records at most one for each item that it
carries, in the order of the items. A download, and an upload to a store in memory, record it under
the path that the entry has in the store, and an upload to a store on the host under the host path
of that entry.
-/

namespace LakeStore

open StorePath

def remotePath (path : String) (names : StorePath) : String :=
  joinRemote (normalize path) (HostPath.ofComponents names)

theorem remotePath_eq {names : StorePath} (h : names.Canonical) (path : String) :
    remotePath path names = (ofString path ++ names).text :=
  joinRemote_ofComponents (ofString_canonical path) h

namespace Transfer

variable {β σ : Type} {place : String}

def MayFail (told : Failure → Prop) (before after : Transfer) : Prop :=
  after.failed = before.failed ∨ ∃ failure, told failure ∧ after.failed = before.failed ++ [failure]

theorem mayFail_recordFile {told : Failure → Prop} (htold : ∀ reason, told ⟨place, reason⟩)
    (transfer : Transfer) (result : Except FailureReason Unit) :
    MayFail told transfer (transfer.recordFile place result) := by
  cases result with
  | ok value => exact .inl rfl
  | error reason => exact .inr ⟨_, htold reason, rfl⟩

theorem mayFail_recordDirectory {told : Failure → Prop} (htold : ∀ reason, told ⟨place, reason⟩)
    (transfer : Transfer) (result : Except FailureReason Unit) :
    MayFail told transfer (transfer.recordDirectory place result) := by
  cases result with
  | ok value => exact .inl rfl
  | error reason => exact .inr ⟨_, htold reason, rfl⟩

theorem failed_foldlM {told : Failure → β → Prop} {step : Transfer → β → StateM σ Transfer}
    {items : List β} (hstep : ∀ item ∈ items, ∀ transfer state,
      MayFail (told · item) transfer ((step transfer item).run state).1)
    (state : σ) : List.SublistForall₂ told ((items.foldlM step {}).run state).1.failed items := by
  induction items using List.reverseRecOn with
  | nil => exact .nil
  | append_singleton items item ih =>
    rw [List.forall_mem_append, List.forall_mem_singleton] at hstep
    have hbefore := ih hstep.1
    rw [List.sublistForall₂_iff] at hbefore ⊢
    obtain ⟨failing, hfailing, hsub⟩ := hbefore
    rw [Step.run_foldlM_concat]
    cases hstep.2 ((items.foldlM step {}).run state).1 ((items.foldlM step {}).run state).2 with
    | inl hsame =>
      rw [hsame]
      exact ⟨failing, hfailing, hsub.trans (List.sublist_append_left _ _)⟩
    | inr hmore =>
      obtain ⟨failure, htold, hfailed⟩ := hmore
      rw [hfailed]
      exact ⟨failing ++ [item], List.rel_append hfailing (.cons htold .nil), hsub.append (.refl _)⟩

end Transfer

def Memory.LocalEntry.FailsAt (label : StorePath → String) (failure : Failure) :
    Memory.LocalEntry → Prop
  | .directory names | .file names _ => failure.path = label names
  | .unread path reason => failure = ⟨path, reason⟩

def WalkItem.FailsAt (source : String) (label : StorePath → String) (failure : Failure) :
    WalkItem → Prop
  | .found names _ => failure.path = label names
  | .failed names error => failure.reason = .walkRefused (HostPath.below source names) error

namespace MemoryClient

open Memory

variable {client : MemoryClient} {account : String}

/--
Whether the transfers of a store in memory record each failure under the path of its entry in the
store.
-/
structure LabelsFailures (client : MemoryClient) : Prop where
  upload : ∀ source path transfer changed,
    (StoreClient.upload source path : ClientM MemoryClient Transfer).outcome client =
      (.ok transfer, changed) →
    ∃ entries, localEntries client.disk source = .ok entries ∧
      List.SublistForall₂ (LocalEntry.FailsAt (remotePath path)) transfer.failed entries
  download : ∀ path target transfer changed,
    (StoreClient.download path target : ClientM MemoryClient Transfer).outcome client =
      (.ok transfer, changed) →
    ∃ cargoes : List Cargo,
      client.tree.snapshot? (ofString path) = some (cargoes.map fun cargo =>
        (ofString path ++ cargo.1, cargo.2)) ∧
      List.SublistForall₂ (fun failure cargo =>
        failure.path = remotePath path cargo.1) transfer.failed cargoes

theorem mayFail_uploadEntry {entry : LocalEntry} (hentry : entry.names.Canonical) (path : String)
    (now : Time) (transfer : Transfer) (tree : Tree) :
    Transfer.MayFail (entry.FailsAt (remotePath path) ·) transfer
      ((Tree.uploadEntry now (ofString path) transfer entry).run tree).1 := by
  unfold Tree.uploadEntry
  cases entry with
  | directory names =>
    have htold :
        LocalEntry.FailsAt (remotePath path) ⟨(ofString path ++ names).text,
          .fileInTheWay⟩ (.directory names) :=
      (remotePath_eq hentry path).symm
    dsimp only
    rw [Step.run_bind]
    split
    . exact .inl rfl
    . exact .inr ⟨_, htold, rfl⟩
  | file names data =>
    have htold : ∀ reason,
        LocalEntry.FailsAt (remotePath path) ⟨(ofString path ++ names).text, reason⟩
        (.file names data) :=
      fun _ => (remotePath_eq hentry path).symm
    dsimp only
    rw [Step.run_bind_pure]
    dsimp only
    apply Transfer.mayFail_recordFile
    exact htold
  | unread place reason =>
    have htold : LocalEntry.FailsAt (remotePath path) ⟨place, reason⟩ (.unread place reason) := rfl
    exact .inr ⟨_, htold, rfl⟩

theorem mayFail_downloadEntry {cargo : Cargo} (hcargo : cargo.1.Canonical) (path target : String)
    (transfer : Transfer) (disk : Disk) :
    Transfer.MayFail (·.path = remotePath path cargo.1) transfer
      ((downloadEntry (ofString path) target transfer (ofString path ++ cargo.1, cargo.2)).run
        disk).1 := by
  obtain ⟨names, data?⟩ := cargo
  have htold : ∀ reason,
      (Failure.mk (ofString path ++ names).text reason).path = remotePath path names :=
    fun _ => (remotePath_eq hcargo path).symm
  unfold downloadEntry
  cases data? with
  | some data =>
    dsimp only
    rw [Step.run_bind_pure]
    dsimp only
    apply Transfer.mayFail_recordFile
    exact htold
  | none =>
    dsimp only
    rw [Step.run_bind_pure]
    dsimp only
    apply Transfer.mayFail_recordDirectory
    exact htold

theorem labelsFailures (h : client.Sound account) : client.LabelsFailures := by
  constructor
  . intro source path transfer changed hupload
    change (upload source path).outcome client = _ at hupload
    unfold upload at hupload
    rw [Step.outcome_bind_ok (Step.outcome_get client)] at hupload
    cases hentries : localEntries client.disk source with
    | error cause =>
      rw [hentries] at hupload
      cases hupload
    | ok entries =>
      rw [hentries] at hupload
      dsimp only at hupload
      rw [onTree_outcome, Step.outcome_liftM, Prod.mk.injEq, Except.ok.injEq] at hupload
      obtain ⟨rfl, _⟩ := hupload
      refine ⟨entries, rfl, ?_⟩
      apply Transfer.failed_foldlM
      intro entry hentry transfer tree
      exact mayFail_uploadEntry (canonical_of_localEntries h.disk hentries entry hentry) path _
        transfer tree
  . intro path target transfer changed hdownload
    change (download path target).outcome client = _ at hdownload
    by_cases hroot : client.tree.contents (ofString path) = none
    . rw [download_missing hroot] at hdownload
      cases hdownload
    . obtain ⟨cargoes, hsnapshot, hlists⟩ := Tree.exists_snapshot hroot
      unfold download at hdownload
      rw [Step.outcome_bind_ok (Step.outcome_get client), hsnapshot] at hdownload
      dsimp only at hdownload
      rw [onDisk_outcome, Step.outcome_liftM, downloadEntries, List.foldlM_map, Prod.mk.injEq,
        Except.ok.injEq] at hdownload
      obtain ⟨rfl, _⟩ := hdownload
      refine ⟨cargoes, hsnapshot, ?_⟩
      apply Transfer.failed_foldlM
      intro cargo hcargo transfer disk
      have hkey := h.tree.canonical _ (hlists.ne_none hcargo)
      exact mayFail_downloadEntry (canonical_append.mp hkey).2 path target transfer disk

end MemoryClient

namespace DirectoryClient

variable {client : DirectoryClient} {disk : Disk} {target : String}

/--
Whether the transfers of a store on the host record each failure of an entry under a path that tells
which entry it is: a download under its path in the store, and an upload under the host path of that
path.
-/
structure LabelsFailures (client : DirectoryClient) : Prop where
  upload : ∀ source path transfer changed,
    (StoreClient.upload source path : ClientM DirectoryClient Transfer).outcome client =
      (.ok transfer, changed) →
    ∃ items : List WalkItem, (∀ item ∈ items, item.names.Canonical) ∧
      (copyTree source (client.fullPath path)).run client.disk =
        (items.foldlM (copyItem source (client.fullPath path)) {}).run client.disk ∧
      List.SublistForall₂ (WalkItem.FailsAt source fun names =>
        client.fullPath (remotePath path names)) transfer.failed items
  download : ∀ path target transfer changed,
    (StoreClient.download path target : ClientM DirectoryClient Transfer).outcome client =
      (.ok transfer, changed) →
    ∃ items : List WalkItem, (∀ item ∈ items, item.names.Canonical) ∧
      (copyTree (client.fullPath path) target).run client.disk =
        (items.foldlM (copyItem (client.fullPath path) target) {}).run client.disk ∧
      List.SublistForall₂ (WalkItem.FailsAt (client.fullPath path) (remotePath path))
      transfer.failed items

theorem mayFail_copyItem {place : String → String} {label : StorePath → String} {item : WalkItem}
    (hplace : place (HostPath.below target item.names) = label item.names) (source : String)
    (transfer : Transfer) (disk : Disk) :
    Transfer.MayFail
      (fun failure => item.FailsAt source label { failure with path := place failure.path })
      transfer ((copyItem source target transfer item).run disk).1 := by
  unfold copyItem
  cases item with
  | found names node =>
    cases node with
    | directory modified =>
      dsimp only
      rw [Step.run_bind_pure]
      exact Transfer.mayFail_recordDirectory (fun _ => hplace) transfer _
    | file id =>
      dsimp only
      rw [Step.run_bind_pure]
      exact Transfer.mayFail_recordFile (fun _ => hplace) transfer _
    | link destination modified => exact .inl rfl
  | failed names error =>
    let full := HostPath.below source names
    have htold : WalkItem.FailsAt source label ⟨place full, .walkRefused full error⟩
        (.failed names error) := rfl
    exact .inr ⟨_, htold, rfl⟩

theorem exists_copied (h : disk.WellFormed) (source target : String) (place : String → String)
    {label : StorePath → String}
    (hlabel : ∀ names, Canonical names → place (HostPath.below target names) = label names) :
    ∃ items : List WalkItem, (∀ item ∈ items, item.names.Canonical) ∧
      (copyTree source target).run disk = (items.foldlM (copyItem source target) {}).run disk ∧
      List.SublistForall₂ (WalkItem.FailsAt source label)
        (((copyTree source target).run disk).1.mapPaths place).failed items := by
  obtain ⟨items, hitems, hrun⟩ := Disk.exists_visited
    (fun transfer disk item h =>
      (copyItem_grows h source target transfer item).wellFormed) h source {}
  refine ⟨items, hitems, hrun, ?_⟩
  have hfailed := Transfer.failed_foldlM (fun item hitem transfer disk =>
    mayFail_copyItem (hlabel _ (hitems item hitem)) source transfer disk) disk
  rw [List.sublistForall₂_iff] at hfailed ⊢
  obtain ⟨failing, hfailing, hsub⟩ := hfailed
  unfold copyTree
  rw [hrun]
  exact ⟨failing, List.forall₂_map_left_iff.mpr hfailing, hsub⟩

theorem fullPath_remotePath {names : StorePath} (h : names.Canonical) (client : DirectoryClient)
    (path : String) :
    client.fullPath (remotePath path names) = HostPath.below (client.fullPath path) names := by
  rw [remotePath_eq h]
  unfold fullPath
  rw [ofString_text (canonical_append.mpr ⟨ofString_canonical path, h⟩), HostPath.below_below]

theorem labelsFailures (h : client.disk.WellFormed) : client.LabelsFailures := by
  constructor
  . intro source path transfer changed hupload
    change (upload source path).outcome client = _ at hupload
    unfold upload at hupload
    rw [Step.outcome_bind_ok (Step.outcome_get client)] at hupload
    split at hupload
    . cases hupload
    . rw [onDisk_outcome, Step.outcome_liftM, Prod.mk.injEq, Except.ok.injEq] at hupload
      obtain ⟨rfl, _⟩ := hupload
      have hcopied := exists_copied h source (client.fullPath path) id
        fun names hnames => (fullPath_remotePath hnames client path).symm
      simpa [Transfer.mapPaths] using hcopied
  . intro path target transfer changed hdownload
    change (download path target).outcome client = _ at hdownload
    unfold download at hdownload
    rw [Step.outcome_bind_ok (Step.outcome_get client), Step.outcome_bind,
      stat?_outcome] at hdownload
    cases hfound : client.described (client.fullPath path) with
    | error error =>
      rw [hfound] at hdownload
      cases hdownload
    | ok found? =>
      rw [hfound] at hdownload
      cases found? with
      | none => cases hdownload
      | some found =>
        dsimp only at hdownload
        rw [Step.outcome_bind_pure, onDisk_outcome, Step.outcome_liftM, Prod.mk.injEq] at hdownload
        have htransfer := Except.ok.inj hdownload.1
        rw [← htransfer]
        apply exists_copied h (client.fullPath path) target (storePlace path target)
        intro names hnames
        rw [storePlace_below target hnames, remotePath_eq hnames]

end DirectoryClient

/--
Each failure that a transfer records is one of an item that it carries. A download, and an upload to
a store in memory, record it under the path of the entry in the store. An upload to a store on the
host records it under the host path of the entry, which is another one unless the store is the root
of the host.
-/
theorem failures_told_by_path {account : String} (memory : MemoryClient)
    (directory : DirectoryClient) (hmemory : memory.Sound account)
    (hdisk : directory.disk.WellFormed) :
    memory.LabelsFailures ∧ directory.LabelsFailures ∧ ∀ path names, Canonical names →
      (directory.fullPath (remotePath path names) = remotePath path names ↔
        directory.base = "/") := by
  refine ⟨MemoryClient.labelsFailures hmemory, DirectoryClient.labelsFailures hdisk, ?_⟩
  intro path names hnames
  have hall : Canonical (ofString path ++ names) :=
    canonical_append.mpr ⟨ofString_canonical path, hnames⟩
  unfold DirectoryClient.fullPath
  rw [remotePath_eq hnames, ofString_text hall]
  exact HostPath.below_eq_text_iff hall

def DirectoryClient.obstructed : DirectoryClient :=
  let blocking := ((Disk.createDirectory "/s/f").outcome sample.disk).2
  { sample with disk := ((Disk.writeFile "/f" ByteArray.empty).outcome blocking).2 }

theorem DirectoryClient.obstructed_wellFormed : obstructed.disk.WellFormed := by
  have hblocking := (Disk.createDirectory_grows sample_rooted.wellFormed "/s/f").wellFormed
  exact (Disk.writeFile_grows hblocking "/f" ByteArray.empty).wellFormed

def MemoryClient.obstructed : MemoryClient :=
  (after "acct" DirectoryClient.obstructed.disk [.called (.createDirectory "f")]).client

theorem failures_told_by_path_of_upload :
    MemoryClient.obstructed.LabelsFailures ∧ DirectoryClient.obstructed.LabelsFailures ∧
      ((StoreClient.upload "/f" "f" : ClientM MemoryClient Transfer).outcome
        MemoryClient.obstructed).1 =
          .ok ⟨0, [⟨"/f", .client (.directoryInTheWay "/f")⟩]⟩ ∧
      ((StoreClient.upload "/f" "f" : ClientM DirectoryClient Transfer).outcome
        DirectoryClient.obstructed).1 =
          .ok ⟨0, [⟨"/s/f", .directoryInTheWay "/s/f"⟩]⟩ ∧
      DirectoryClient.obstructed.fullPath (remotePath "f" []) ≠ remotePath "f" [] := by
  have hdisk := DirectoryClient.obstructed_wellFormed
  have hsound := MemoryClient.after_sound "acct" hdisk [.called (.createDirectory "f")]
  obtain ⟨hmemory, hdirectory, hpath⟩ :=
    failures_told_by_path MemoryClient.obstructed DirectoryClient.obstructed hsound hdisk
  refine ⟨hmemory, hdirectory, by rfl, by rfl, ?_⟩
  rw [ne_eq, hpath "f" [] canonical_nil]
  decide

end LakeStore
