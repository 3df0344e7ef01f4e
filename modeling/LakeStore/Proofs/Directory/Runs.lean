import LakeStore.Proofs.Directory.Rooted
import LakeStore.Proofs.Store.Session

/-!
Runs of the client of a directory: no call takes the root away from the store, or puts a link into
it. Calls that make entries only add to the disk, wherever a transfer carries them, and calls that
remove entries stay below the root.
-/

namespace LakeStore.DirectoryClient

open StorePath

variable {client : DirectoryClient} {account : String} {location : Location}

theorem onDisk_outcome {ε α : Type} (step : Step Disk ε α) (client : DirectoryClient) :
    (onDisk step).outcome client =
      ((step.outcome client.disk).1, { client with disk := (step.outcome client.disk).2 }) := rfl

theorem Rooted.withDisk (h : client.Rooted account location) {disk : Disk} (hdisk : disk.WellFormed)
    (hhere : disk.here = client.disk.here)
    (hkeeps : (client.disk.cleared location).Keeps (disk.cleared location))
    (hlink : ∀ path target modified,
      disk.nodes.get? (location ++ path) ≠ some (.link target modified)) :
    Rooted account location { client with disk := disk } := by
  refine ⟨h.account, hdisk, ?_, ?_, hlink⟩
  . rw [hhere]
    exact h.outside
  . obtain ⟨modified, hfind⟩ := h.base
    exact ⟨modified, Disk.findWith_keeps hkeeps hhere hfind⟩

theorem Rooted.of_grows (h : client.Rooted account location) {disk : Disk}
    (hgrows : client.disk.Grows disk) :
    Rooted account location { client with disk := disk } := by
  apply h.withDisk hgrows.wellFormed hgrows.here
  . intro other node hnode
    have hold := Disk.get?_of_get?_filter hnode
    unfold Disk.cleared
    rw [Disk.get?_filter, if_pos hold.1]
    exact hgrows.keeps other node hold.2
  . intro path target modified hnode
    exact h.noLink path target modified (hgrows.noNewLink _ target modified hnode)

theorem Rooted.of_shrinks (h : client.Rooted account location) {disk : Disk} {path : StorePath}
    (hne : path ≠ []) (hshrinks : Disk.Shrinks (location ++ path) client.disk disk) :
    Rooted account location { client with disk := disk } := by
  apply h.withDisk hshrinks.wellFormed hshrinks.here
  . intro other node hnode
    have hold := Disk.get?_of_get?_filter hnode
    have hother : ¬ location ++ path <+: other := by
      intro hpre
      have hbelow : Below location other := (below_append hne).trans hpre
      simp [hbelow] at hold
    unfold Disk.cleared
    rw [Disk.get?_filter, if_pos hold.1]
    exact hshrinks.outside other node hother hold.2
  . intro rest target modified hnode
    exact h.noLink rest target modified (hshrinks.keeps _ _ hnode)

theorem copyFile_grows {disk : Disk} (h : disk.WellFormed) (source target : String) :
    disk.Grows ((copyFile source target).outcome disk).2 := by
  unfold copyFile
  apply Step.state_bind (P := disk.Grows)
  . exact Disk.createParents_grows h target
  . intro _ made _ hmade
    rw [Step.outcome_bind_ok (Step.outcome_get made)]
    cases made.isDirectory target with
    | true => exact hmade
    | false => exact hmade.trans (Disk.copyFile_grows hmade.wellFormed source target)

theorem copyItem_grows {disk : Disk} (h : disk.WellFormed) (source target : String)
    (transfer : Transfer) (item : WalkItem) :
    disk.Grows ((copyItem source target transfer item).run disk).2 := by
  unfold copyItem
  split
  . next names node =>
    cases node with
    | directory modified =>
      dsimp only
      rw [Step.run_bind_pure, Step.run_run, Step.outcome_mapError]
      dsimp only
      exact Disk.createDirectories_grows h (HostPath.below target names)
    | file id =>
      dsimp only
      rw [Step.run_bind_pure, Step.run_run]
      dsimp only
      exact copyFile_grows h (HostPath.below source names) (HostPath.below target names)
    | link destination modified => exact .refl h
  . exact .refl h

theorem copyTree_grows {disk : Disk} (h : disk.WellFormed) (source target : String) :
    disk.Grows ((copyTree source target).run disk).2 := by
  let P : Transfer → Disk → Prop := fun _ new => disk.Grows new
  have hvisit : ∀ transfer new item, P transfer new → item.names.Canonical →
      P ((copyItem source target transfer item).run new).1
        ((copyItem source target transfer item).run new).2 := by
    intro transfer new item hnew _
    exact hnew.trans (copyItem_grows hnew.wellFormed source target transfer item)
  have hwellFormed : ∀ transfer new, P transfer new → new.WellFormed :=
    fun transfer new hnew => hnew.wellFormed
  exact Disk.visitTree_invariant hwellFormed hvisit (.refl h)

theorem stat?_state (full : String) (client : DirectoryClient) :
    ((stat? full).outcome client).2 = client := by
  rw [stat?_outcome]

theorem createDirectory_outcome (path : String) (client : DirectoryClient) :
    (StoreClient.createDirectory path : ClientM DirectoryClient Bool).outcome client =
      let made := (Disk.createDirectories (client.fullPath path)).outcome client.disk
      (.ok made.1.isOk, { client with disk := made.2 }) := by
  change ((get : ClientM DirectoryClient DirectoryClient) >>= fun client =>
    onDisk (Disk.createDirectories (client.fullPath path)).succeeds).outcome client = _
  rw [Step.outcome_bind_ok (Step.outcome_get client), onDisk_outcome, Step.outcome_liftM,
    Step.run_succeeds]

theorem openReader_state (path : String) (client : DirectoryClient) :
    ((openReader path).outcome client).2 = client := by
  unfold openReader
  rw [Step.outcome_bind_ok (Step.outcome_get client)]
  dsimp only
  cases client.disk.isDirectory (client.fullPath path) with
  | true => rfl
  | false =>
    rw [if_neg (by simp), Step.state_bind_pure]
    rfl

theorem list_state (path : String) (client : DirectoryClient) :
    ((list path).outcome client).2 = client := by
  unfold list
  rw [Step.outcome_bind_ok (Step.outcome_get client), Step.state_bind_pure]
  rfl

theorem remove_state {P : DirectoryClient → Prop} (h : P client)
    {directory other : String → Step Disk HostError Unit} {path : String}
    (hdirectory : ¬ client.isRoot (client.fullPath path) →
      P { client with disk := ((directory (client.fullPath path)).outcome client.disk).2 })
    (hother : ¬ client.isRoot (client.fullPath path) →
      P { client with disk := ((other (client.fullPath path)).outcome client.disk).2 }) :
    P ((remove directory other path).outcome client).2 := by
  unfold remove
  rw [Step.outcome_bind_ok (Step.outcome_get client)]
  dsimp only
  split
  . exact h
  . next hroot =>
    apply Step.state_bind (P := P)
    . rw [stat?_state]
      exact h
    . intro found changed houtcome hchanged
      have hsame : changed = client := by
        rw [← stat?_state (client.fullPath path) client, houtcome]
      rw [hsame]
      cases found with
      | none => exact h
      | some found =>
        dsimp only
        split
        . exact hdirectory hroot
        . exact hother hroot

structure KeptOnDisk (P : DirectoryClient → Prop) : Prop where
  making : ∀ client made, P client → (client.disk.WellFormed → client.disk.Grows made) →
    P { client with disk := made }
  removing : ∀ client path request, P client → ¬ client.isRoot (client.fullPath path) →
    Disk.RemovesOnly request →
    P { client with disk := ((request (client.fullPath path)).outcome client.disk).2 }

namespace KeptOnDisk

variable {P : DirectoryClient → Prop}

theorem onDisk {ε α : Type} (hkept : KeptOnDisk P) (h : P client) {step : Step Disk ε α}
    (hstep : client.disk.WellFormed → client.disk.Grows (step.outcome client.disk).2) :
    P ((DirectoryClient.onDisk step).outcome client).2 :=
  hkept.making client _ h hstep

theorem createFile (hkept : KeptOnDisk P) (h : P client) (path : String) (ifExists : IfExists) :
    P ((DirectoryClient.createFile path ifExists).outcome client).2 := by
  unfold DirectoryClient.createFile
  rw [Step.outcome_bind_ok (Step.outcome_get client)]
  dsimp only
  cases client.disk.isDirectory (client.fullPath path) with
  | true => exact h
  | false =>
    rw [if_neg (by simp)]
    apply Step.state_bind (P := P)
    . apply hkept.onDisk h
      intro hwellFormed
      rw [Step.outcome_mapError]
      exact Disk.createParents_grows hwellFormed (client.fullPath path)
    . intro _ made _ hmade
      rw [Step.state_bind_pure]
      apply hkept.onDisk hmade
      intro hwellFormed
      rw [Step.outcome_mapError]
      dsimp only
      split
      . exact Disk.openNew_grows hwellFormed (client.fullPath path)
      . exact Disk.openForWriting_grows hwellFormed (client.fullPath path)

theorem remove (hkept : KeptOnDisk P) (h : P client)
    {directory other : String → Step Disk HostError Unit} (hdirectory : Disk.RemovesOnly directory)
    (hother : Disk.RemovesOnly other) (path : String) :
    P ((DirectoryClient.remove directory other path).outcome client).2 := by
  apply remove_state h
  . exact fun hroot => hkept.removing client path directory h hroot hdirectory
  . exact fun hroot => hkept.removing client path other h hroot hother

theorem upload (hkept : KeptOnDisk P) (h : P client) (source path : String) :
    P ((DirectoryClient.upload source path).outcome client).2 := by
  unfold DirectoryClient.upload
  rw [Step.outcome_bind_ok (Step.outcome_get client)]
  split
  . exact h
  . apply hkept.making client _ h
    intro hwellFormed
    exact copyTree_grows hwellFormed source (client.fullPath path)

theorem download (hkept : KeptOnDisk P) (h : P client) (path target : String) :
    P ((DirectoryClient.download path target).outcome client).2 := by
  unfold DirectoryClient.download
  rw [Step.outcome_bind_ok (Step.outcome_get client)]
  dsimp only
  apply Step.state_bind (P := P)
  . rw [stat?_state]
    exact h
  . intro found changed _ hchanged
    cases found with
    | none => exact hchanged
    | some found =>
      dsimp only
      rw [Step.state_bind_pure]
      apply hkept.onDisk hchanged
      intro hwellFormed
      rw [Step.outcome_liftM]
      exact copyTree_grows hwellFormed (client.fullPath path) target

theorem keptByCalls (hkept : KeptOnDisk P) : Session.KeptByCalls P := by
  constructor
  . intro path client h
    rw [exists?_outcome]
    exact h
  . intro path client h
    change P ((DirectoryClient.openReader path).outcome client).2
    rw [openReader_state]
    exact h
  . intro path ifExists client h
    exact hkept.createFile h path ifExists
  . intro path client h
    exact hkept.remove h Disk.removesOnly_removeDirectory Disk.removesOnly_removeFile path
  . intro path client h
    rw [createDirectory_outcome]
    apply hkept.making client _ h
    intro hwellFormed
    exact Disk.createDirectories_grows hwellFormed (client.fullPath path)
  . intro path client h
    exact hkept.remove h Disk.removesOnly_removeTree Disk.removesOnly_removeFile path
  . intro path client h
    rw [entryAt?_outcome]
    exact h
  . intro path client h
    change P ((DirectoryClient.list path).outcome client).2
    rw [list_state]
    exact h
  . intro source path client h
    exact hkept.upload h source path
  . intro path target client h
    exact hkept.download h path target
  . intro handle count? client h
    exact h
  . intro handle data client h
    apply hkept.making client _ h
    intro hwellFormed
    exact Disk.writeAt_grows hwellFormed handle.id handle.position data

end KeptOnDisk

theorem path_ne_nil {path : String} (hroot : ¬ client.isRoot (client.fullPath path)) :
    ofString path ≠ [] := by
  intro hnil
  apply hroot
  unfold isRoot fullPath
  rw [hnil]
  simp [HostPath.below]

theorem Rooted.location_of_findEntry (h : client.Rooted account location) {path : StorePath}
    (hpath : path.Canonical) (hne : path ≠ []) {found : Location} {node : Disk.Node}
    (hfind : client.disk.findEntry (HostPath.below client.base path) = .ok (.taken found node)) :
    found = location ++ path := by
  cases hcheck : Disk.checkText (HostPath.below client.base path) with
  | error error =>
    unfold Disk.findEntry at hfind
    rw [findWith_of_checkText hcheck] at hfind
    cases hfind
  | ok =>
    unfold Disk.findEntry at hfind
    obtain ⟨expand, hfollow⟩ := h.findWith_below hpath hne hcheck
      ⟨false, HostPath.endsInSlash (HostPath.below client.base path), false⟩
    rw [hfollow] at hfind
    exact h.isRegion.follow_location hpath hfind

theorem keptOnDisk_rooted (account : String) (location : Location) :
    KeptOnDisk (Rooted account location) := by
  constructor
  . intro client made h hgrows
    exact h.of_grows (hgrows h.wellFormed)
  . intro client path request h hroot hremoves
    have hne := path_ne_nil hroot
    have hremoved : location ++ ofString path ≠ [] := by simp [hne]
    have houtside : ¬ location ++ ofString path <+: client.disk.here := by
      intro hpre
      exact h.outside ((below_append hne).trans hpre)
    have hfind : ∀ found node,
        client.disk.findEntry (client.fullPath path) = .ok (.taken found node) →
          found = location ++ ofString path := by
      intro found node hfound
      exact h.location_of_findEntry (ofString_canonical path) hne hfound
    exact h.of_shrinks hne (hremoves client.disk _ _ h.wellFormed hremoved houtside hfind)

theorem keptByCalls_rooted (account : String) (location : Location) :
    Session.KeptByCalls (Rooted account location) :=
  (keptOnDisk_rooted account location).keptByCalls

def sample : DirectoryClient :=
  ⟨"acct", "/s", ((Disk.createDirectory "/s").outcome (.empty default)).2⟩

theorem sample_rooted : sample.Rooted "acct" ["s"] := by
  have hgrows := Disk.createDirectory_grows (Disk.empty_wellFormed default) "/s"
  have hfind : sample.disk.find sample.base = .ok (.taken ["s"] (.directory default)) := by decide
  have hempty : sample.disk.nodes.below ["s"] = [] := by decide
  exact rooted_of_empty hgrows.wellFormed hfind hempty

def HasAccount (account : String) (client : DirectoryClient) : Prop :=
  client.account = account

theorem keptOnDisk_hasAccount (account : String) : KeptOnDisk (HasAccount account) := by
  constructor
  . intro client made h _
    exact h
  . intro client path request h _ _
    exact h

theorem keptByCalls_hasAccount (account : String) :
    Session.KeptByCalls (HasAccount account) :=
  (keptOnDisk_hasAccount account).keptByCalls

end LakeStore.DirectoryClient
