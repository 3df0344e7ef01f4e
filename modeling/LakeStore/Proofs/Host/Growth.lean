import LakeStore.Proofs.Host.Change

/-!
The requests that make entries have this in common, whether they succeed or not: they keep all
entries that are there, and make neither a link nor an entry that a disk cannot hold.
-/

namespace LakeStore.Disk

open StorePath

structure Grows (old new : Disk) : Prop where
  keeps : old.Keeps new
  here : new.here = old.here
  noNewLink : ∀ location target modified, new.nodes.get? location = some (.link target modified) →
    old.nodes.get? location = some (.link target modified)
  wellFormed : new.WellFormed

variable {disk : Disk}

theorem Grows.refl (h : disk.WellFormed) : disk.Grows disk := by
  refine ⟨?_, rfl, ?_, h⟩
  . exact fun _ _ hnode => hnode
  . exact fun _ _ _ hnode => hnode

theorem Grows.trans {a b c : Disk} (hab : a.Grows b) (hbc : b.Grows c) : a.Grows c := by
  refine ⟨?_, ?_, ?_, hbc.wellFormed⟩
  . intro location node hnode
    apply hbc.keeps
    apply hab.keeps
    exact hnode
  . rw [hbc.here, hab.here]
  . intro location target modified hnode
    apply hab.noNewLink
    apply hbc.noNewLink
    exact hnode

theorem get?_addNode_place (disk : Disk) (files : Array File) (location other : Location)
    (node : Node) :
    ({ disk with files := files }.addNode location node).nodes.get? other =
      if other = location then some node else disk.nodes.get? other :=
  PathMap.get?_insert disk.nodes location other node

theorem keeps_addNode {location : Location} {name : String} (hplace : disk.IsPlace location name)
    (files : Array File) (node : Node) :
    disk.Keeps ({ disk with files := files }.addNode (location ++ [name]) node) := by
  intro other old hold
  rw [get?_addNode_place]
  split
  . next heq =>
    rw [heq, hplace.free] at hold
    cases hold
  . exact hold

theorem wellFormed_addNode (h : disk.WellFormed) {location : Location} {name : String} {node : Node}
    (hplace : disk.IsPlace location name) (files : Array File)
    (hfiles : disk.files.size ≤ files.size) (hfile : ∀ id, node = .file id → id < files.size) :
    ({ disk with files := files }.addNode (location ++ [name]) node).WellFormed := by
  have hdirectory : ∀ other, disk.IsDirectoryAt other →
      ({ disk with files := files }.addNode (location ++ [name]) node).IsDirectoryAt other := by
    rintro other ⟨modified, hnode⟩
    exact ⟨modified, keeps_addNode hplace files node other _ hnode⟩
  refine ⟨?_, ?_, ?_, ?_, ?_⟩
  . exact hdirectory [] h.root
  . exact hdirectory disk.here h.here
  . intro other last found hfound
    apply hdirectory
    rw [get?_addNode_place] at hfound
    split at hfound
    . next heq =>
      have heq := List.append_inj_left' heq rfl
      rw [heq]
      exact hplace.parent
    . exact h.parent other last found hfound
  . intro other last found hfound
    rw [get?_addNode_place] at hfound
    split at hfound
    . next heq =>
      have heq := List.append_inj_right' heq rfl
      rw [List.singleton_inj] at heq
      rw [heq]
      exact hplace.isName
    . exact h.name other last found hfound
  . intro other id hfound
    rw [get?_addNode_place] at hfound
    split at hfound
    . rw [Option.some_inj] at hfound
      exact hfile id hfound
    . have := h.file other id hfound
      dsimp [addNode]
      omega

theorem grows_addNode (h : disk.WellFormed) {location : Location} {name : String} {node : Node}
    (hplace : disk.IsPlace location name) (files : Array File)
    (hfiles : disk.files.size ≤ files.size) (hfile : ∀ id, node = .file id → id < files.size)
    (hlink : ∀ target modified, node ≠ .link target modified) :
    disk.Grows ({ disk with files := files }.addNode (location ++ [name]) node) := by
  refine ⟨keeps_addNode hplace files node, rfl, ?_, wellFormed_addNode h hplace files hfiles hfile⟩
  intro other target modified hnode
  rw [get?_addNode_place] at hnode
  split at hnode
  . rw [Option.some_inj] at hnode
    exact absurd hnode (hlink target modified)
  . exact hnode

theorem grows_addDirectory (h : disk.WellFormed) {location : Location} {name : String}
    (hplace : disk.IsPlace location name) (modified : Time) :
    disk.Grows (disk.addNode (location ++ [name]) (.directory modified)) := by
  apply grows_addNode h hplace disk.files (Nat.le_refl _)
  . intro id hid
    cases hid
  . intro target time hlink
    cases hlink

theorem grows_addFile (h : disk.WellFormed) {location : Location} {name : String}
    (hplace : disk.IsPlace location name) (file : File) :
    disk.Grows (disk.addFile (location ++ [name]) file) := by
  have hsize : (disk.files.push file).size = disk.files.size + 1 := Array.size_push file
  apply grows_addNode h hplace (disk.files.push file)
  . omega
  . intro id hid
    cases hid
    omega
  . intro target time hlink
    cases hlink

theorem grows_modifyFile (h : disk.WellFormed) (id : Nat) (change : File → File) :
    disk.Grows (disk.modifyFile id change) := by
  refine ⟨?_, rfl, ?_, ?_⟩
  . exact fun _ _ hnode => hnode
  . exact fun _ _ _ hnode => hnode
  . refine ⟨h.root, h.here, h.parent, h.name, ?_⟩
    intro location id hnode
    have := h.file location id hnode
    dsimp [modifyFile]
    rw [Array.size_modify]
    exact this

theorem createLink_wellFormed (h : disk.WellFormed) (path target : String) :
    ((createLink path target).outcome disk).2.WellFormed := by
  unfold createLink
  rw [Step.outcome_bind, Step.outcome_ofExcept]
  cases checkText target with
  | error error => exact h
  | ok =>
    dsimp only
    rw [outcome_asked_bind]
    cases hfind : disk.findPlace path with
    | error error => exact h
    | ok spot =>
      cases spot with
      | taken location node => exact h
      | free location name =>
        dsimp only
        split
        . exact h
        . exact wellFormed_addNode h (findWith_holds h hfind) disk.files (Nat.le_refl _) (by simp)

theorem createDirectory_grows (h : disk.WellFormed) (path : String) :
    disk.Grows ((createDirectory path).outcome disk).2 := by
  rw [createDirectory_outcome]
  split
  . next location name hfind => exact grows_addDirectory h (findWith_holds h hfind) disk.clock
  . exact .refl h
  . exact .refl h

theorem unlessThere_state (path : String) (error : HostError) (disk : Disk) :
    ((createDirectories.unlessThere path error).outcome disk).2 = disk := by
  rw [unlessThere_outcome]
  split
  all_goals rfl

theorem go_grows (h : disk.WellFormed) (paths : List String) :
    disk.Grows ((createDirectories.go paths).outcome disk).2 := by
  induction paths generalizing disk with
  | nil => exact .refl h
  | cons path above ih =>
    unfold createDirectories.go
    split
    . exact .refl h
    . apply Step.state_tryCatch (P := disk.Grows)
      . exact createDirectory_grows h path
      . intro error tried _ htried
        split
        . -- The directories above are made, and then this one is tried again.
          apply Step.state_bind (P := disk.Grows)
          . exact htried.trans (ih htried.wellFormed)
          . intro _ made _ hmade
            apply Step.state_tryCatch (P := disk.Grows)
            . exact hmade.trans (createDirectory_grows hmade.wellFormed path)
            . intro error again _ hagain
              rw [unlessThere_state]
              exact hagain
        . rw [unlessThere_state]
          exact htried

theorem createDirectories_grows (h : disk.WellFormed) (path : String) :
    disk.Grows ((createDirectories path).outcome disk).2 :=
  go_grows h (path :: HostPath.parents path)

theorem createParents_grows (h : disk.WellFormed) (path : String) :
    disk.Grows ((createParents path).outcome disk).2 := by
  unfold createParents
  split
  . next parent _ => exact createDirectories_grows h parent
  . exact .refl h

theorem openNew_grows (h : disk.WellFormed) (path : String) :
    disk.Grows ((openNew path).outcome disk).2 := by
  rw [openNew_outcome]
  split
  . next location name hfind => exact grows_addFile h (findWith_holds h hfind) _
  . exact .refl h
  . exact .refl h

theorem openForWriting_grows (h : disk.WellFormed) (path : String) :
    disk.Grows ((openForWriting path).outcome disk).2 := by
  rw [openForWriting_outcome]
  split
  . next location name hfind => exact grows_addFile h (findWith_holds h hfind) _
  . next id hfind => exact grows_modifyFile h id _
  . exact .refl h
  . exact .refl h

theorem writeAt_grows (h : disk.WellFormed) (id position : Nat) (data : ByteArray) :
    disk.Grows ((writeAt id position data).run disk).2 := by
  rw [writeAt_run]
  exact grows_modifyFile h id _

theorem writeFile_grows (h : disk.WellFormed) (path : String) (data : ByteArray) :
    disk.Grows ((writeFile path data).outcome disk).2 := by
  unfold writeFile
  apply Step.state_bind (P := disk.Grows)
  . exact openForWriting_grows h path
  . intro id opened _ hopened
    exact hopened.trans (writeAt_grows hopened.wellFormed id 0 data)

theorem copyFile_grows (h : disk.WellFormed) (source target : String) :
    disk.Grows ((copyFile source target).outcome disk).2 := by
  unfold copyFile
  rw [outcome_asked_bind]
  split
  . next id _ =>
    apply Step.state_bind (P := disk.Grows)
    . exact openForWriting_grows h target
    . intro copy opened _ hopened
      exact hopened.trans (writeAt_grows hopened.wellFormed copy 0 (opened.contents id))
  . exact .refl h

end LakeStore.Disk
