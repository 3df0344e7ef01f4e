import LakeStore.Proofs.FileSystem.Operations
import LakeStore.Proofs.FileSystem.Reference
import LakeStore.Proofs.Memory.Client

/-!
The operations of the file system on a store in memory. Each answers, and changes what the store
holds, as the file system apart from any client does.
-/

namespace LakeStore.MemoryClient

open Memory StorePath

variable {client : MemoryClient} {account : String} {path : StorePath}

structure Settled (account : String) (client : MemoryClient) : Prop where
  sound : client.Sound account
  stamped : ∀ path node, client.tree.get? path = some node → node.modified ≠ none

theorem new_settled (account : String) {disk : Disk} (h : disk.WellFormed) :
    (new account disk).Settled account := by
  refine ⟨new_sound account h, ?_⟩
  intro path node hnode
  change (Tree.empty disk.clock).get? path = some node at hnode
  unfold Tree.empty at hnode
  rw [PathMap.get?_insert] at hnode
  split at hnode
  . cases hnode
    simp [Node.modified]
  . cases hnode

theorem stamped_insert_addParents {tree : Tree}
    (h : ∀ path node, tree.get? path = some node → node.modified ≠ none) (now : Time)
    (path : StorePath) {node : Node} (hnode : node.modified ≠ none) :
    ∀ other found, PathMap.get? ((tree.addParents now path).insert path node) other = some found →
      found.modified ≠ none := by
  intro other found hfound
  rw [PathMap.get?_insert] at hfound
  split at hfound
  . cases hfound
    exact hnode
  . rw [Tree.get?_addParents] at hfound
    split at hfound
    . cases hold : tree.get? other with
      | some old =>
        rw [hold] at hfound
        cases hfound
        exact h other old hold
      | none =>
        rw [hold] at hfound
        cases hfound
        simp [Node.modified]
    . exact h other found hfound

theorem Settled.withTree (h : client.Settled account) {tree : Tree}
    (htree : tree.contents.WellFormed)
    (hstamped : ∀ path node, tree.get? path = some node → node.modified ≠ none) :
    Settled account { client with tree := tree } :=
  ⟨⟨h.sound.account, htree, h.sound.disk⟩, hstamped⟩

theorem probe_isDirectory (h : client.Settled account) (path : StorePath) :
    (Probe.ofEntry (Tree.entryAt? client.tree path)).isDirectory ↔
      client.tree.contents path = some .directory := by
  unfold Tree.entryAt? Tree.contents
  cases hnode : client.tree.get? path with
  | none => simp [Probe.ofEntry, Probe.isDirectory]
  | some node =>
    have hstamped := h.stamped path node hnode
    cases node with
    | directory modified =>
      cases modified with
      | none => exact absurd rfl hstamped
      | some time => simp [Probe.ofEntry, Probe.isDirectory, Node.entry, Node.content]
    | file data modified =>
      cases modified with
      | none => exact absurd rfl hstamped
      | some time => simp [Probe.ofEntry, Probe.isDirectory, Node.entry, Node.content]

theorem exists?_outcome (path : String) (client : MemoryClient) :
    (StoreClient.exists? path : ClientM MemoryClient Bool).outcome client =
      (.ok (client.tree.contains (ofString path)), client) := rfl

theorem entryAt?_outcome (path : String) (client : MemoryClient) :
    (StoreClient.entryAt? path : ClientM MemoryClient (Option Entry)).outcome client =
      (.ok (Tree.entryAt? client.tree (ofString path)), client) := rfl

theorem list_outcome {path : String} (h : client.tree.contents (ofString path) = some .directory) :
    (StoreClient.list path : ClientM MemoryClient (List Entry)).outcome client =
      (.ok ((client.tree.children (ofString path)).map fun (key, node) => node.entry key),
        client) := by
  obtain ⟨modified, hnode⟩ := Tree.contents_eq_directory_iff.mp h
  change (onTree fun _ => Tree.list (ofString path)).outcome client = _
  rw [onTree_outcome, Tree.list_outcome, hnode]

theorem mem_children_all {uri : RemoteUri} :
    uri ∈ (Children.mk account ((client.tree.children path).map fun (key, node) =>
      node.entry key)).all ↔
      ∃ name, client.tree.contents (path ++ [name]) ≠ none ∧
        uri = .ofPath account (path ++ [name]).text := by
  unfold Children.all
  rw [List.map_map, List.mem_map]
  constructor
  . rintro ⟨⟨key, node⟩, hmem, rfl⟩
    rw [PathMap.mem_children_iff] at hmem
    obtain ⟨name, rfl, hnode⟩ := hmem
    refine ⟨name, ?_, ?_⟩
    . rw [ne_eq, Tree.contents_eq_none_iff, hnode]
      simp
    . cases node <;> rfl
  . rintro ⟨name, hcontent, rfl⟩
    rw [ne_eq, Tree.contents_eq_none_iff] at hcontent
    obtain ⟨node, hnode⟩ := Option.ne_none_iff_exists'.mp hcontent
    refine ⟨(path ++ [name], node), ?_, ?_⟩
    . rw [PathMap.mem_children_iff]
      exact ⟨name, rfl, hnode⟩
    . cases node <;> rfl

theorem stamped_createDirectory {tree : Tree}
    (h : ∀ path node, tree.get? path = some node → node.modified ≠ none) (now : Time)
    (path : StorePath) :
    ∀ other found, PathMap.get? ((Tree.createDirectory now path).run tree).2 other = some found →
      found.modified ≠ none := by
  rw [Tree.createDirectory_run]
  split
  . exact h
  . exact h
  . split
    . exact h
    . apply stamped_insert_addParents h
      simp [Node.modified]

theorem stamped_insert {tree : Tree}
    (h : ∀ path node, tree.get? path = some node → node.modified ≠ none) {node : Node}
    (hnode : node.modified ≠ none) :
    ∀ other found, PathMap.get? (tree.insert path node) other = some found →
    found.modified ≠ none := by
  intro other found hfound
  rw [PathMap.get?_insert] at hfound
  split at hfound
  . cases hfound
    exact hnode
  . exact h other found hfound

theorem stamped_filter {tree : Tree}
    (h : ∀ path node, tree.get? path = some node → node.modified ≠ none) (keep : StorePath → Bool) :
    ∀ other found, PathMap.get? (tree.filter keep) other = some found → found.modified ≠ none := by
  intro other found hfound
  rw [PathMap.get?_filter] at hfound
  split at hfound
  . exact h other found hfound
  . cases hfound

theorem exists_created (h : client.Settled account) {path : String}
    (hput : client.tree.contents.CanPut (ofString path)) :
    ∃ opened, (StoreClient.createFile path .overwrite : ClientM MemoryClient _).outcome client =
        (.ok (Writer.mk (ofString path)), opened) ∧
      opened.Settled account ∧
      opened.tree.get? (ofString path) = some (.file ByteArray.empty (some client.disk.clock)) ∧
      opened.tree.contents = client.tree.contents.put (ofString path) ByteArray.empty := by
  have hrefusal : Tree.putRefusal? client.tree (ofString path) .overwrite = none := by
    rw [Tree.putRefusal?_eq_none_iff h.sound.tree]
    exact ⟨hput, by simp⟩
  have houtcome := createFile_outcome path .overwrite client
  have hsound := createFile_sound h.sound path .overwrite
  rw [hrefusal] at houtcome
  rw [houtcome] at hsound
  refine ⟨_, houtcome, ⟨hsound, ?_⟩, PathMap.get?_insert_self _ _ _, ?_⟩
  . apply stamped_insert_addParents h.stamped
    simp [Node.modified]
  . exact Tree.contents_putFile h.sound.tree hput client.disk.clock ByteArray.empty

theorem exists_written (h : client.Settled account) {writer : Writer} {modified : Option Time}
    (hnode : client.tree.get? writer.path = some (.file ByteArray.empty modified))
    (data : ByteArray) :
    ∃ after, (StoreClient.writeAll writer data : Step MemoryClient StreamError _).outcome client =
        (.ok writer, after) ∧
      after.Settled account ∧
      after.tree.contents = fun other =>
        if other = writer.path then some (.file data) else client.tree.contents other := by
  unfold StoreClient.writeAll
  split
  . next hempty =>
    have hdata : data = ByteArray.empty := by
      rw [← ByteArray.size_eq_zero_iff]
      simpa [ByteArray.isEmpty] using hempty
    refine ⟨client, rfl, h, ?_⟩
    funext other
    split
    . next heq =>
      rw [heq, hdata, Tree.contents_eq_file_iff]
      exact ⟨modified, hnode⟩
    . rfl
  . have houtcome := write_outcome writer data client
    rw [hnode] at houtcome
    have hsound := write_sound h.sound writer data
    rw [houtcome] at hsound
    refine ⟨_, houtcome, ⟨hsound, ?_⟩, ?_⟩
    . apply stamped_insert h.stamped
      simp [Node.modified]
    . dsimp only
      rw [Tree.contents_insert, ByteArray.empty_append]
      rfl

theorem performs_create (h : client.Settled account) (uri : RemoteUri) (data : ByteArray) :
    (Operation.create uri data).Performs account (·.tree.contents) (Settled account) id client := by
  by_cases hput : client.tree.contents.CanPut (ofString uri.path)
  . have hperform : (Operation.create uri data).perform account client.tree.contents = _ :=
      Operation.perform_create hput
    obtain ⟨opened, hcreate, hopened, hnode, hcontents⟩ := exists_created h hput
    obtain ⟨after, hwrite, hafter, hwritten⟩ := exists_written hopened hnode data
    have hfinal : after.tree.contents = client.tree.contents.put (ofString uri.path) data := by
      rw [hwritten, hcontents]
      exact Contents.put_again client.tree.contents (ofString uri.path) ByteArray.empty data
    rw [← hfinal] at hperform
    exact Operation.performs_of_run rfl (Operation.run_create_of_ok hcreate hwrite) hperform hafter
  . have hcreate := createFile_outcome uri.path .overwrite client
    cases hrefusal : Tree.putRefusal? client.tree (ofString uri.path) .overwrite with
    | none =>
      rw [Tree.putRefusal?_eq_none_iff h.sound.tree] at hrefusal
      exact absurd hrefusal.1 hput
    | some error =>
      rw [hrefusal] at hcreate
      have hrun : (Operation.create uri data).run client = _ :=
        Operation.run_create_of_error hcreate
      exact Operation.performs_of_run rfl hrun (Operation.perform_create_refused hput) h

theorem performs_delete (h : client.Settled account) (uri : RemoteUri) :
    (Operation.delete uri).Performs account (·.tree.contents) (Settled account) id client := by
  have houtcome : (StoreClient.delete uri.path : ClientM MemoryClient Bool).outcome client =
      (.ok ((Tree.delete (ofString uri.path)).run client.tree).1,
        { client with tree := ((Tree.delete (ofString uri.path)).run client.tree).2 }) := rfl
  rw [Tree.delete_run] at houtcome
  by_cases hdelete : client.tree.contents.CanDelete (ofString uri.path)
  . have hperform : (Operation.delete uri).perform account client.tree.contents = _ :=
      Operation.perform_delete hdelete
    rw [if_pos ((Tree.removable_iff h.sound.tree).mpr hdelete)] at houtcome
    have hcontents := Tree.contents_erase_of_canDelete hdelete
    rw [← hcontents] at hperform
    apply Operation.performs_of_run rfl (Operation.run_delete_of_ok houtcome) hperform
    apply h.withTree
    . rw [hcontents]
      exact h.sound.tree.without hdelete.1
    . exact stamped_filter h.stamped _
  . rw [if_neg (fun hremovable =>
      hdelete ((Tree.removable_iff h.sound.tree).mp hremovable))] at houtcome
    have hrun := Operation.run_delete_of_ok houtcome
    exact Operation.performs_of_run rfl hrun (Operation.perform_delete_refused hdelete) h

theorem performs_createDirectory (h : client.Settled account) (uri : RemoteUri) :
    (Operation.createDirectory uri).Performs account (·.tree.contents) (Settled account) id
      client := by
  have houtcome :
      (StoreClient.createDirectory uri.path : ClientM MemoryClient Bool).outcome client =
        (.ok ((Tree.createDirectory client.disk.clock (ofString uri.path)).run client.tree).1,
          { client with
          tree := ((Tree.createDirectory client.disk.clock (ofString uri.path)).run client.tree).2
          }) := rfl
  by_cases hput : client.tree.contents.CanPutDirectory (ofString uri.path)
  . have hperform : (Operation.createDirectory uri).perform account client.tree.contents = _ :=
      Operation.perform_createDirectory hput
    obtain ⟨tree, hrun, hcontents⟩ :=
      Tree.createDirectory_of_canPut h.sound.tree hput client.disk.clock
    have hstamped := stamped_createDirectory h.stamped client.disk.clock (ofString uri.path)
    rw [hrun] at houtcome hstamped
    rw [← hcontents] at hperform
    apply Operation.performs_of_run rfl (Operation.run_createDirectory_of_ok houtcome) hperform
    apply h.withTree
    . rw [hcontents]
      exact h.sound.tree.putDirectory (ofString_canonical uri.path)
    . exact hstamped
  . rw [Tree.createDirectory_of_not_canPut h.sound.tree hput] at houtcome
    have hrun := Operation.run_createDirectory_of_ok houtcome
    exact Operation.performs_of_run rfl hrun (Operation.perform_createDirectory_refused hput) h

theorem performs_deleteDirectory (h : client.Settled account) (uri : RemoteUri) :
    (Operation.deleteDirectory uri).Performs account (·.tree.contents) (Settled account) id
      client := by
  have hentry := entryAt?_outcome uri.path client
  have hprobe := probe_isDirectory h (ofString uri.path)
  have houtcome :
      (StoreClient.deleteRecursive uri.path : ClientM MemoryClient Bool).outcome client =
        (.ok ((Tree.deleteRecursive (ofString uri.path)).run client.tree).1,
          { client with
            tree := ((Tree.deleteRecursive (ofString uri.path)).run client.tree).2 }) := rfl
  rw [Tree.deleteRecursive_run] at houtcome
  by_cases hdirectory : client.tree.contents (ofString uri.path) = some .directory
  . have hcontains : client.tree.contains (ofString uri.path) := by
      rw [Tree.contains_iff_contents, hdirectory]
      simp
    by_cases hroot : ofString uri.path = []
    . rw [if_neg (by simp [hroot])] at houtcome
      have hrun :=
        Operation.run_deleteDirectory_of_directory hentry (hprobe.mpr hdirectory) houtcome
      exact Operation.performs_of_run rfl hrun (Operation.perform_deleteDirectory_root hroot) h
    . have hperform : (Operation.deleteDirectory uri).perform account client.tree.contents = _ :=
        Operation.perform_deleteDirectory hroot hdirectory
      rw [if_pos (by simp [hroot, hcontains])] at houtcome
      have hrun :=
        Operation.run_deleteDirectory_of_directory hentry (hprobe.mpr hdirectory) houtcome
      have hcontents := Tree.contents_eraseFrom client.tree (ofString uri.path)
      rw [← hcontents] at hperform
      apply Operation.performs_of_run rfl hrun hperform
      apply h.withTree
      . rw [hcontents]
        exact h.sound.tree.without hroot
      . exact stamped_filter h.stamped _
  . have hprobeFalse : (Probe.ofEntry (Tree.entryAt? client.tree (ofString uri.path))).isDirectory =
        false := by
      rw [Bool.eq_false_iff, ne_eq, hprobe]
      exact hdirectory
    have hrun := Operation.run_deleteDirectory_of_not_directory hentry hprobeFalse
    exact Operation.performs_of_run rfl hrun (Operation.perform_deleteDirectory_refused hdirectory)
      h

theorem openReader_outcome (path : String) (client : MemoryClient) :
    (StoreClient.openReader path : ClientM MemoryClient _).outcome client =
      match client.tree.get? (ofString path) with
      | some (.file data _) => (.ok (Reader.mk data), client)
      | some (.directory _) => (.error (.isDirectory (ofString path).text), client)
      | none => (.error (.fileNotFound (ofString path).text none), client) := by
  change (onTree fun _ => (Tree.read (ofString path)) >>= fun data => pure (Reader.mk data)).outcome
    client = _
  rw [onTree_outcome, Step.outcome_bind_pure, Tree.read_outcome]
  cases client.tree.get? (ofString path) with
  | none => rfl
  | some node => cases node <;> rfl

theorem read_run (data : ByteArray) (client : MemoryClient) :
    (StoreClient.read (Reader.mk data) none : StateM MemoryClient _).run client =
      ((data, ⟨data.extract data.size data.size⟩), client) := by
  change ((data.extract 0 (min data.size data.size),
    Reader.mk (data.extract (min data.size data.size) data.size)), client) = _
  rw [Nat.min_self, ByteArray.extract_zero_size]

theorem performs_read (h : client.Settled account) (uri : RemoteUri) :
    (Operation.read uri).Performs account (·.tree.contents) (Settled account) id client := by
  have hopen := openReader_outcome uri.path client
  cases hnode : client.tree.get? (ofString uri.path) with
  | none =>
    have hnone : ∀ data, client.tree.contents (ofString uri.path) ≠ some (.file data) := by
      intro data hfile
      rw [Tree.contents_eq_none_iff.mpr hnode] at hfile
      cases hfile
    rw [hnode] at hopen
    have hrun : (Operation.read uri).run client = _ := Operation.run_read_of_error hopen
    exact Operation.performs_of_run rfl hrun (Operation.perform_read_of_not_file hnone) h
  | some node =>
    rw [hnode] at hopen
    cases node with
    | directory modified =>
      have hdirectory : ∀ data, client.tree.contents (ofString uri.path) ≠ some (.file data) := by
        intro data hfile
        rw [Tree.contents_eq_directory_iff.mpr ⟨modified, hnode⟩] at hfile
        cases hfile
      have hrun : (Operation.read uri).run client = _ := Operation.run_read_of_error hopen
      exact Operation.performs_of_run rfl hrun (Operation.perform_read_of_not_file hdirectory) h
    | file data modified =>
      have hfile := Tree.contents_eq_file_iff.mpr ⟨modified, hnode⟩
      have hrun := Operation.run_read_of_ok hopen (read_run data client)
      exact Operation.performs_of_run rfl hrun (Operation.perform_read_of_file hfile) h

theorem performs_exists? (h : client.Settled account) (uri : RemoteUri) :
    (Operation.exists? uri).Performs account (·.tree.contents) (Settled account) id client := by
  have hperform : (Operation.exists? uri).perform account client.tree.contents =
      (some (.found (client.tree.contents (ofString uri.path)).isSome), client.tree.contents) := rfl
  have hcontains : (client.tree.contents (ofString uri.path)).isSome =
      client.tree.contains (ofString uri.path) := Option.isSome_map
  rw [hcontains] at hperform
  exact Operation.performs_of_run rfl
    (Operation.run_exists?_of_ok (exists?_outcome uri.path client)) hperform h

theorem performs_children (h : client.Settled account) (uri : RemoteUri) :
    (Operation.children uri).Performs account (·.tree.contents) (Settled account) id client := by
  have hentry := entryAt?_outcome uri.path client
  have hprobe := probe_isDirectory h (ofString uri.path)
  by_cases hdirectory : client.tree.contents (ofString uri.path) = some .directory
  . have hperform : (Operation.children uri).perform account client.tree.contents = _ :=
      if_pos hdirectory
    have hrun :=
      Operation.run_children_of_directory hentry (hprobe.mpr hdirectory) (list_outcome hdirectory)
    have haccount : StoreClient.account client = account := h.sound.account
    simp only [haccount, mem_children_all] at hrun
    exact Operation.performs_of_run rfl hrun hperform h
  . have hprobeFalse : (Probe.ofEntry (Tree.entryAt? client.tree (ofString uri.path))).isDirectory =
        false := by
      rw [Bool.eq_false_iff, ne_eq, hprobe]
      exact hdirectory
    have hrun := Operation.run_children_of_not_directory hentry hprobeFalse
    exact Operation.performs_of_run rfl hrun (Operation.perform_children_refused hdirectory) h

theorem performs_status (h : client.Settled account) (uri : RemoteUri) :
    (Operation.status uri).Performs account (·.tree.contents) (Settled account) id client := by
  have hrun := Operation.run_status_of_ok (entryAt?_outcome uri.path client)
  unfold Tree.entryAt? at hrun
  cases hnode : client.tree.get? (ofString uri.path) with
  | none =>
    have hnone := Tree.contents_eq_none_iff.mpr hnode
    rw [hnode] at hrun
    exact Operation.performs_of_run rfl hrun (Operation.perform_status_of_none hnone) h
  | some node =>
    have hstamped := h.stamped (ofString uri.path) node hnode
    rw [hnode] at hrun
    cases node with
    | directory modified =>
      have hdirectory := Tree.contents_eq_directory_iff.mpr ⟨modified, hnode⟩
      cases modified with
      | none => exact absurd rfl hstamped
      | some time =>
        exact Operation.performs_of_run rfl hrun (Operation.perform_status_of_directory hdirectory)
          h
    | file data modified =>
      have hfile := Tree.contents_eq_file_iff.mpr ⟨modified, hnode⟩
      cases modified with
      | none => exact absurd rfl hstamped
      | some time =>
        exact Operation.performs_of_run rfl hrun (Operation.perform_status_of_file hfile) h

theorem performs (h : client.Settled account) (operation : Operation) :
    operation.Performs account (·.tree.contents) (Settled account) id client := by
  cases operation with
  | create uri data => exact performs_create h uri data
  | delete uri => exact performs_delete h uri
  | createDirectory uri => exact performs_createDirectory h uri
  | deleteDirectory uri => exact performs_deleteDirectory h uri
  | read uri => exact performs_read h uri
  | exists? uri => exact performs_exists? h uri
  | children uri => exact performs_children h uri
  | status uri => exact performs_status h uri

end LakeStore.MemoryClient
