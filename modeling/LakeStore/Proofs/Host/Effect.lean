import LakeStore.Host.Change
import LakeStore.Proofs.Host.Region

/-!
A change of the disk, seen from what the disk holds below a location. A file that is written changes
at one place alone, as long as it is at no other place.
-/

namespace LakeStore.Disk

variable {disk : Disk} {location path : Location}

theorem get?_addNode (disk : Disk) (location path other : Location) (node : Node) :
    (disk.addNode (location ++ path) node).nodes.get? (location ++ other) =
      if other = path then some node else disk.nodes.get? (location ++ other) := by
  have hget := PathMap.get?_insert disk.nodes (location ++ path) (location ++ other) node
  simp only [List.append_cancel_left_eq] at hget
  exact hget

theorem contentsAt_addNode (disk : Disk) (location path : Location) (node : Node) :
    (disk.addNode (location ++ path) node).contentsAt location =
      fun other =>
        if other = path then some (disk.content node) else disk.contentsAt location other := by
  funext other
  unfold contentsAt
  rw [get?_addNode]
  split
  . rfl
  . rfl

theorem contentsAt_addDirectory (h : (disk.contentsAt location).IsTree)
    (hdirectory : disk.contentsAt location path = some .directory) (name : String)
    (modified : Time) :
    (disk.addNode (location ++ path ++ [name]) (.directory modified)).contentsAt location =
      (disk.contentsAt location).putDirectory (path ++ [name]) := by
  rw [h.putDirectory_concat hdirectory, List.append_assoc]
  exact contentsAt_addNode disk location (path ++ [name]) (.directory modified)

theorem content_congr {old new : Disk} {node : Node}
    (h : ∀ id, node = .file id → new.files[id]? = old.files[id]?) :
    new.content node = old.content node := by
  cases node with
  | directory modified => rfl
  | link target modified => rfl
  | file id =>
    unfold content contents
    dsimp only
    rw [h id rfl]

theorem contentsAt_addFile (h : disk.WellFormed) (location path : Location) (file : File) :
    (disk.addFile (location ++ path) file).contentsAt location =
      fun other =>
        if other = path then some (.file file.data) else disk.contentsAt location other := by
  unfold addFile
  rw [contentsAt_addNode]
  funext other
  split
  . simp [content, contents]
  . unfold contentsAt
    apply Option.map_congr
    intro node hnode
    apply content_congr
    intro id hid
    have hlt := h.file (location ++ other) id (hid ▸ hnode)
    rw [Array.getElem?_push, if_neg (by omega)]

theorem contentsAt_modifyFile (h : disk.WellFormed) {id : Nat} (halone : disk.Alone path)
    (hnode : disk.nodes.get? path = some (.file id)) (change : File → File)
    {data : ByteArray} (hdata : ∀ file, disk.files[id]? = some file → (change file).data = data) :
    (disk.modifyFile id change).contentsAt [] =
      fun other => if other = path then some (.file data) else disk.contentsAt [] other := by
  have hfiles : ∀ other, (disk.modifyFile id change).files[other]? =
      if id = other then disk.files[other]?.map change else disk.files[other]? := by
    intro other
    exact Array.getElem?_modify
  funext other
  split
  . next heq =>
    have hid := h.file _ id hnode
    have hget : disk.files[id]? = some disk.files[id] := Array.getElem?_eq_getElem hid
    rw [heq, contentsAt_eq_file_iff]
    refine ⟨id, hnode, ?_⟩
    unfold contents
    rw [hfiles, if_pos rfl, hget]
    exact hdata _ hget
  . next hne =>
    unfold contentsAt
    apply Option.map_congr
    intro node hother
    apply content_congr
    intro otherId hid
    have hdifferent : id ≠ otherId := by
      rintro rfl
      exact hne (halone id other hnode (hid ▸ hother))
    rw [hfiles, if_neg hdifferent]

theorem overwrite_empty (data : ByteArray) : overwrite ByteArray.empty 0 data = data := by
  apply ByteArray.ext
  unfold overwrite
  simp

theorem contentsAt_writeAt (h : disk.WellFormed) {id : Nat} (halone : disk.Alone path)
    (hnode : disk.nodes.get? path = some (.file id))
    (hempty : disk.contentsAt [] path = some (.file ByteArray.empty)) (data : ByteArray) :
    ((writeAt id 0 data).run disk).2.contentsAt [] =
      fun other => if other = path then some (.file data) else disk.contentsAt [] other := by
  apply contentsAt_modifyFile h halone hnode
  intro file hfile
  obtain ⟨same, hsame, hcontents⟩ := contentsAt_eq_file_iff.mp hempty
  rw [List.nil_append, hnode] at hsame
  cases hsame
  unfold contents at hcontents
  rw [hfile] at hcontents
  dsimp only at hcontents ⊢
  rw [hcontents, overwrite_empty]

theorem Alone.addDirectory {place : Location} (h : disk.Alone place) (path : Location)
    (modified : Time) :
    (disk.addNode path (.directory modified)).Alone place := by
  have hold : ∀ other id,
      (disk.addNode path (.directory modified)).nodes.get? other = some (.file id) →
        disk.nodes.get? other = some (.file id) := by
    intro other id hnode
    have hget := get?_addNode disk [] path other (.directory modified)
    simp only [List.nil_append] at hget
    rw [hget] at hnode
    split at hnode
    . cases hnode
    . exact hnode
  intro id other hplace hother
  exact h id other (hold place id hplace) (hold other id hother)

theorem Alone.addFile {place : Location} (h : disk.Alone place) (hdisk : disk.WellFormed)
    (path : Location) (file : File) : (disk.addFile path file).Alone place := by
  have hnew : ∀ other id, (disk.addFile path file).nodes.get? other = some (.file id) →
      other = path ∧ id = disk.files.size ∨ disk.nodes.get? other = some (.file id) ∧
      id < disk.files.size := by
    intro other id hnode
    have hget :=
      get?_addNode { disk with files := disk.files.push file } [] path other (.file disk.files.size)
    simp only [List.nil_append] at hget
    unfold Disk.addFile at hnode
    rw [hget] at hnode
    split at hnode
    . next heq =>
      cases hnode
      exact .inl ⟨heq, rfl⟩
    . exact .inr ⟨hnode, hdisk.file other id hnode⟩
  intro id other hplace hother
  rcases hnew place id hplace with ⟨rfl, rfl⟩ | ⟨hplace, hid⟩
  . rcases hnew other _ hother with ⟨heq, _⟩ | ⟨_, hlt⟩
    . exact heq
    . exact absurd hlt (Nat.lt_irrefl _)
  . rcases hnew other id hother with ⟨_, rfl⟩ | ⟨hother, _⟩
    . exact absurd hid (Nat.lt_irrefl _)
    . exact h id other hplace hother

theorem Alone.filter {place : Location} (h : disk.Alone place) (keep : Location → Bool) :
    Alone { disk with nodes := disk.nodes.filter keep } place := by
  have hold : ∀ other id, (disk.nodes.filter keep).get? other = some (.file id) →
      disk.nodes.get? other = some (.file id) := by
    intro other id hnode
    rw [PathMap.get?_filter] at hnode
    split at hnode
    . exact hnode
    . cases hnode
  intro id other hplace hother
  exact h id other (hold place id hplace) (hold other id hother)

theorem contentsAt_erase (disk : Disk) (location path : Location) :
    contentsAt { disk with nodes := disk.nodes.erase (location ++ path) } location =
      fun other => if other = path then none else disk.contentsAt location other := by
  funext other
  unfold contentsAt
  rw [PathMap.get?_erase]
  simp only [List.append_cancel_left_eq]
  split
  . rfl
  . rfl

theorem contentsAt_eraseFrom (disk : Disk) (location path : Location) :
    contentsAt { disk with nodes := disk.nodes.eraseFrom (location ++ path) } location =
      (disk.contentsAt location).without path := by
  funext other
  unfold contentsAt Contents.without
  rw [PathMap.get?_eraseFrom]
  simp only [List.prefix_append_right_inj]
  split
  . rfl
  . rfl

end LakeStore.Disk
