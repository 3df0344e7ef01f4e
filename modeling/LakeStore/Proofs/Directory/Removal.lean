import LakeStore.Proofs.Directory.Answers
import LakeStore.Proofs.Directory.Runs
import LakeStore.Proofs.Host.Effect

/-!
Entries are removed from a store on the host in one of two ways, as directories or as files. The
root stays, and so does a directory that holds something when it is not removed as a tree.
-/

namespace LakeStore.DirectoryClient

open StorePath

variable {client : DirectoryClient} {account : String} {location : Location} {path : StorePath}

theorem remove_outcome_of_described (directory other : String → Step Disk HostError Unit)
    {path : String} (hroot : client.isRoot (client.fullPath path) = false) :
    (remove directory other path).outcome client =
      match client.described (client.fullPath path) with
      | .ok none => (.ok false, client)
      | .ok (some found) =>
        let request := if found.kind = .directory then directory else other
        (onDisk (request (client.fullPath path)).succeeds).outcome client
      | .error error => (.error error, client) := by
  unfold remove
  rw [Step.outcome_bind_ok (Step.outcome_get client)]
  dsimp only
  rw [hroot, if_neg (by simp), Step.outcome_bind, stat?_outcome]
  cases client.described (client.fullPath path) with
  | error error => rfl
  | ok found? =>
    cases found? with
    | none => rfl
    | some found =>
      dsimp only
      split
      all_goals rfl

theorem remove_root {directory other : String → Step Disk HostError Unit} {path : String}
    (hroot : client.isRoot (client.fullPath path)) :
    (remove directory other path).outcome client = (.ok false, client) := by
  unfold remove
  rw [Step.outcome_bind_ok (Step.outcome_get client)]
  dsimp only
  rw [if_pos hroot]
  rfl

theorem onDisk_succeeds_outcome {ε α : Type} (step : Step Disk ε α) (client : DirectoryClient) :
    (onDisk step.succeeds : ClientM DirectoryClient Bool).outcome client =
      (.ok (step.outcome client.disk).1.isOk,
        { client with disk := (step.outcome client.disk).2 }) := rfl

theorem Rooted.findEntry_of_get? (h : client.Rooted account location) (hpath : path.Canonical)
    (hne : path ≠ []) (haccepts : Accepts client.base path) {node : Disk.Node}
    (hnode : client.disk.nodes.get? (location ++ path) = some node) :
    client.disk.findEntry (HostPath.below client.base path) =
      .ok (.taken (location ++ path) node) := by
  unfold Disk.findEntry
  rw [HostPath.endsInSlash_below h.base_ne_empty hpath hne]
  exact h.findWith_of_get? hpath hne haccepts rfl hnode

theorem below_isEmpty_iff (disk : Disk) (location : Location) (path : StorePath) :
    (disk.nodes.below (location ++ path)).isEmpty ↔
      ∀ other, Below path other → disk.contentsAt location other = none := by
  rw [List.isEmpty_iff, List.eq_nil_iff_forall_not_mem]
  constructor
  . intro hnone other hbelow
    rw [Disk.contentsAt_eq_none_iff]
    cases hnode : disk.nodes.get? (location ++ other) with
    | none => rfl
    | some node =>
      have hmem := (PathMap.mem_below_iff disk.nodes (location ++ path) _ node).mpr
        ⟨below_append_iff.mpr hbelow, hnode⟩
      exact absurd hmem (hnone _)
  . rintro hnone ⟨other, node⟩ hmem
    rw [PathMap.mem_below_iff] at hmem
    obtain ⟨hbelow, hnode⟩ := hmem
    obtain ⟨rest, rfl⟩ := (List.prefix_append location path).trans hbelow.1
    rw [below_append_iff] at hbelow
    have hcontent := hnone rest hbelow
    rw [Disk.contentsAt_eq_none_iff, hnode] at hcontent
    cases hcontent

section remove

variable {path : String} (h : client.Rooted account location) (hne : ofString path ≠ [])
  (haccepts : Accepts client.base (ofString path))

include h hne haccepts

theorem Rooted.remove_directory_outcome (directory other : String → Step Disk HostError Unit)
    (hdirectory : client.disk.contentsAt location (ofString path) = some .directory) :
    (remove directory other path).outcome client =
      (.ok ((directory (client.fullPath path)).outcome client.disk).1.isOk,
        { client with disk := ((directory (client.fullPath path)).outcome client.disk).2 }) := by
  obtain ⟨modified, hdescribed⟩ :=
    h.described_directory (ofString_canonical path) haccepts hdirectory
  rw [remove_outcome_of_described _ _ (h.isRoot_eq_false hne)]
  unfold fullPath
  rw [hdescribed]
  dsimp only
  rw [if_pos rfl, onDisk_succeeds_outcome]

theorem Rooted.remove_file_outcome (directory : String → Step Disk HostError Unit)
    {data : ByteArray}
    (hfile : client.disk.contentsAt location (ofString path) = some (.file data)) :
    (remove directory Disk.removeFile path).outcome client = (.ok true, { client with
      disk := { client.disk with
        nodes := client.disk.nodes.erase (location ++ ofString path) } }) := by
  obtain ⟨modified, hdescribed⟩ := h.described_file (ofString_canonical path) haccepts hfile
  obtain ⟨id, hnode, _⟩ := Disk.contentsAt_eq_file_iff.mp hfile
  have hfind := h.findEntry_of_get? (ofString_canonical path) hne haccepts hnode
  rw [remove_outcome_of_described _ _ (h.isRoot_eq_false hne)]
  unfold fullPath
  rw [hdescribed]
  dsimp only
  rw [if_neg (by simp), onDisk_succeeds_outcome, Disk.removeFile_outcome, hfind]
  rfl

theorem Rooted.removeDirectory_outcome
    (hdirectory : client.disk.contentsAt location (ofString path) = some .directory) :
    (remove Disk.removeDirectory Disk.removeFile path).outcome client =
      if (client.disk.nodes.below (location ++ ofString path)).isEmpty then
        (.ok true, { client with
          disk := { client.disk with
            nodes := client.disk.nodes.erase (location ++ ofString path) } })
      else (.ok false, client) := by
  obtain ⟨modified, hnode⟩ := Disk.contentsAt_eq_directory_iff.mp hdirectory
  have hfind := h.findEntry_of_get? (ofString_canonical path) hne haccepts hnode
  rw [h.remove_directory_outcome hne haccepts _ _ hdirectory, Disk.removeDirectory_outcome]
  unfold fullPath
  rw [hfind]
  dsimp only
  split
  all_goals rfl

theorem Rooted.removeTree_outcome
    (hdirectory : client.disk.contentsAt location (ofString path) = some .directory) :
    (remove Disk.removeTree Disk.removeFile path).outcome client = (.ok true, { client with
      disk := { client.disk with
        nodes := client.disk.nodes.eraseFrom (location ++ ofString path) } }) := by
  obtain ⟨modified, hnode⟩ := Disk.contentsAt_eq_directory_iff.mp hdirectory
  have hfind := h.findEntry_of_get? (ofString_canonical path) hne haccepts hnode
  have houtside : ¬ location ++ ofString path <+: client.disk.here := by
    intro hpre
    exact h.outside ((below_append hne).trans hpre)
  have hcleared := h.of_shrinks hne (Disk.shrinks_cleared h.wellFormed houtside)
  have hagain := hcleared.findEntry_of_get? (ofString_canonical path) hne haccepts
    ((Disk.get?_cleared_self client.disk (location ++ ofString path)).trans hnode)
  rw [h.remove_directory_outcome hne haccepts _ _ hdirectory, Disk.removeTree_outcome]
  unfold fullPath
  rw [hfind]
  dsimp only at hagain ⊢
  rw [Disk.removeDirectory_outcome, hagain]
  dsimp only
  rw [Disk.below_cleared, List.isEmpty_nil, if_pos rfl, Disk.erase_cleared]
  rfl

theorem Rooted.remove_none_outcome (directory other : String → Step Disk HostError Unit)
    (hnone : client.disk.contentsAt location (ofString path) = none) :
    (remove directory other path).outcome client = (.ok false, client) ∨
      ∃ error, (remove directory other path).outcome client = (.error error, client) := by
  rw [remove_outcome_of_described _ _ (h.isRoot_eq_false hne)]
  unfold fullPath
  cases h.described_none (ofString_canonical path) haccepts hnone with
  | inl hdescribed =>
    rw [hdescribed]
    exact .inl rfl
  | inr herror =>
    obtain ⟨error, hdescribed⟩ := herror
    rw [hdescribed]
    exact .inr ⟨error, rfl⟩

end remove

section delete

variable {path : String} (h : client.Rooted account location)
  (haccepts : Accepts client.base (ofString path))

include h haccepts

theorem Rooted.delete_of_canDelete
    (hdelete : (client.disk.contentsAt location).CanDelete (ofString path)) :
    (remove Disk.removeDirectory Disk.removeFile path).outcome client = (.ok true, { client with
      disk := { client.disk with
        nodes := client.disk.nodes.erase (location ++ ofString path) } }) := by
  cases hcontent : client.disk.contentsAt location (ofString path) with
  | none => exact absurd hcontent hdelete.2.1
  | some content =>
    cases content with
    | directory =>
      rw [h.removeDirectory_outcome hdelete.1 haccepts hcontent]
      rw [if_pos ((below_isEmpty_iff client.disk location (ofString path)).mpr hdelete.2.2)]
    | file data => exact h.remove_file_outcome hdelete.1 haccepts Disk.removeDirectory hcontent
    | link target => exact absurd hcontent (h.contents_wellFormed.noLink _ target)

theorem Rooted.delete_refused
    (hdelete : ¬ (client.disk.contentsAt location).CanDelete (ofString path)) :
    (remove Disk.removeDirectory Disk.removeFile path).outcome client = (.ok false, client) ∨
      ∃ error, (remove Disk.removeDirectory Disk.removeFile path).outcome client =
        (.error error, client) := by
  by_cases hne : ofString path = []
  . exact .inl (remove_root ((h.isRoot_iff path).mpr hne))
  . cases hcontent : client.disk.contentsAt location (ofString path) with
    | none => exact h.remove_none_outcome hne haccepts _ _ hcontent
    | some content =>
      cases content with
      | directory =>
        have hnotEmpty : ¬ (client.disk.nodes.below (location ++ ofString path)).isEmpty := by
          rw [below_isEmpty_iff]
          intro hnone
          exact hdelete ⟨hne, by simp [hcontent], hnone⟩
        left
        rw [h.removeDirectory_outcome hne haccepts hcontent, if_neg hnotEmpty]
      | file data =>
        have hnone : ∀ other,
            Below (ofString path) other → client.disk.contentsAt location other = none := by
          intro other hbelow
          exact h.contents_wellFormed.isTree.none_below_file hcontent hbelow
        exact absurd ⟨hne, by simp [hcontent], hnone⟩ hdelete
      | link target => exact absurd hcontent (h.contents_wellFormed.noLink _ target)

end delete

end LakeStore.DirectoryClient
