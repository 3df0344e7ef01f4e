import LakeStore.Proofs.Memory.Client

/-!
What each event does to the tree of a store in memory, and which steps on the tree keep the entry at
a path as it is: all that put, write, mark or remove something else.
-/

namespace LakeStore

open StorePath

namespace Memory.Tree

variable {tree : Tree} {path target : StorePath} {node : Node}

theorem kept_addParents (h : tree.get? path = some node) (now : Time) (target : StorePath) :
    (tree.addParents now target).get? path = some node := by
  rw [get?_addParents]
  split
  . rw [h]
    rfl
  . exact h

theorem kept_putFile (h : tree.get? path = some node) (now : Time) (data : ByteArray)
    (ifExists : IfExists)
    (hkept : target = path → ¬ ((putFile now target data ifExists).outcome tree).1.isOk) :
    ((putFile now target data ifExists).outcome tree).2.get? path = some node := by
  rw [putFile_outcome] at hkept ⊢
  split
  . exact h
  . next hput =>
    rw [hput] at hkept
    have hne : path ≠ target := fun heq => hkept heq.symm rfl
    dsimp only
    rw [PathMap.get?_insert, if_neg hne]
    exact kept_addParents h now target

theorem kept_createDirectory (h : tree.get? path = some node) (now : Time) (target : StorePath) :
    ((createDirectory now target).run tree).2.get? path = some node := by
  rw [createDirectory_run]
  split
  . exact h
  . exact h
  . next hnone =>
    split
    . exact h
    . have hne : path ≠ target := by
        rintro rfl
        rw [hnone] at h
        cases h
      dsimp only
      rw [PathMap.get?_insert, if_neg hne]
      exact kept_addParents h now target

theorem kept_append (h : tree.get? path = some node) (now : Time) (hne : path ≠ target)
    (data : ByteArray) :
    ((append now target data).outcome tree).2.get? path = some node := by
  rw [append_outcome]
  split
  . dsimp only
    rw [PathMap.get?_insert, if_neg hne]
    exact h
  . exact h

theorem kept_markPendingDelete (h : tree.get? path = some node) (hne : path ≠ target) :
    ((markPendingDelete target).run tree).2.get? path = some node := by
  rw [markPendingDelete_run]
  split
  . dsimp only
    rw [PathMap.get?_insert, if_neg hne]
    exact h
  . exact h

theorem kept_delete (h : tree.get? path = some node)
    (hkept : target = path → ((delete target).run tree).1 ≠ true) :
    ((delete target).run tree).2.get? path = some node := by
  rw [delete_run] at hkept ⊢
  split
  . next hremovable =>
    rw [if_pos hremovable] at hkept
    have hne : path ≠ target := fun heq => hkept heq.symm rfl
    dsimp only
    rw [PathMap.get?_erase, if_neg hne]
    exact h
  . exact h

theorem kept_deleteRecursive (h : tree.get? path = some node)
    (hkept : target <+: path → ((deleteRecursive target).run tree).1 ≠ true) :
    ((deleteRecursive target).run tree).2.get? path = some node := by
  rw [deleteRecursive_run] at hkept ⊢
  split
  . next hremovable =>
    rw [if_pos hremovable] at hkept
    have hnot : ¬ target <+: path := fun hpre => hkept hpre rfl
    dsimp only
    rw [PathMap.get?_eraseFrom, if_neg hnot]
    exact h
  . exact h

theorem kept_uploadEntry (h : tree.get? path = some node) (now : Time) {root : StorePath}
    (transfer : Transfer) {entry : LocalEntry}
    (hentry : ∀ names data, entry = .file names data → root ++ names ≠ path) :
    ((uploadEntry now root transfer entry).run tree).2.get? path = some node := by
  cases entry with
  | directory names =>
    have hcreate := kept_createDirectory h now (root ++ names)
    unfold uploadEntry
    rw [Step.run_bind]
    split
    all_goals exact hcreate
  | file names data =>
    exact kept_putFile h now data .overwrite fun heq => absurd heq (hentry names data rfl)
  | unread source reason => exact h

theorem kept_upload (h : tree.get? path = some node) (now : Time) {root : StorePath}
    {entries : List LocalEntry}
    (hentries : ∀ names data, .file names data ∈ entries → root ++ names ≠ path) :
    ((upload now root entries).run tree).2.get? path = some node := by
  let P : Transfer → Tree → Prop := fun _ tree => tree.get? path = some node
  have hloop : ∀ transfer tree, P transfer tree → ∀ entry ∈ entries,
      P ((uploadEntry now root transfer entry).run tree).1
        ((uploadEntry now root transfer entry).run tree).2 := by
    intro transfer tree htree entry hentry
    apply kept_uploadEntry htree now transfer
    rintro names data rfl
    exact hentries names data hentry
  exact Step.run_foldlM_of_step hloop h

end Memory.Tree

namespace MemoryClient

open Memory

theorem createFile_state (text : String) (ifExists : IfExists) (client : MemoryClient) :
    ((StoreClient.createFile text ifExists : ClientM MemoryClient Writer).outcome client).2 =
      { client with
        tree := ((Tree.putFile client.disk.clock (ofString text) ByteArray.empty ifExists).outcome
          client.tree).2 } := by
  change (((onTree fun now => Tree.putFile now (ofString text) ByteArray.empty ifExists) >>=
    fun _ => pure (Writer.mk (ofString text))).outcome client).2 = _
  rw [Step.state_bind_pure, onTree_outcome]

theorem write_state (writer : Writer) (data : ByteArray) (client : MemoryClient) :
    ((StoreClient.write writer data : Step MemoryClient StreamError Writer).outcome client).2 =
      { client with
        tree := ((Tree.append client.disk.clock writer.path data).outcome client.tree).2 } := by
  change (((onTree fun now => Tree.append now writer.path data) >>= fun _ =>
    pure writer).outcome client).2 = _
  rw [Step.state_bind_pure, onTree_outcome]

theorem openReader_state (text : String) (client : MemoryClient) :
    ((StoreClient.openReader text : ClientM MemoryClient Reader).outcome client).2 = client := by
  change ((onTree fun _ => Tree.read (ofString text) >>= fun data =>
    pure (Reader.mk data)).outcome client).2 = _
  rw [onTree_outcome, Step.outcome_bind_pure, Tree.read_outcome]
  split
  all_goals rfl

theorem list_state (text : String) (client : MemoryClient) :
    ((StoreClient.list text : ClientM MemoryClient (List Entry)).outcome client).2 = client := by
  change ((onTree fun _ => Tree.list (ofString text)).outcome client).2 = _
  rw [onTree_outcome, Tree.list_outcome]
  split
  all_goals rfl

theorem tree_upload (source text : String) (client : MemoryClient) :
    ((upload source text).outcome client).2.tree =
      match localEntries client.disk source with
      | .ok entries => ((Tree.upload client.disk.clock (ofString text) entries).run client.tree).2
      | .error _ => client.tree := by
  unfold upload
  rw [Step.outcome_bind_ok (Step.outcome_get client)]
  cases localEntries client.disk source <;> rfl

theorem tree_download (text target : String) (client : MemoryClient) :
    ((download text target).outcome client).2.tree = client.tree := by
  unfold download
  rw [Step.outcome_bind_ok (Step.outcome_get client)]
  cases client.tree.snapshot? (ofString text) with
  | none => rfl
  | some entries => rfl

def treeAfterCall (session : Session MemoryClient) : Call → Tree
  | .createFile text ifExists =>
    ((Tree.putFile session.client.disk.clock (ofString text) ByteArray.empty ifExists).outcome
      session.client.tree).2
  | .delete text => ((Tree.delete (ofString text)).run session.client.tree).2
  | .createDirectory text =>
    ((Tree.createDirectory session.client.disk.clock (ofString text)).run session.client.tree).2
  | .deleteRecursive text => ((Tree.deleteRecursive (ofString text)).run session.client.tree).2
  | .upload source text =>
    match localEntries session.client.disk source with
    | .ok entries =>
      ((Tree.upload session.client.disk.clock (ofString text) entries).run session.client.tree).2
    | .error _ => session.client.tree
  | .write index data =>
    match session.writers[index]? with
    | some writer =>
      ((Tree.append session.client.disk.clock writer.path data).outcome session.client.tree).2
    | none => session.client.tree
  | _ => session.client.tree

theorem tree_step (session : Session MemoryClient) (call : Call) :
    (session.step call).client.tree = treeAfterCall session call := by
  cases call with
  | openReader text =>
    exact congrArg tree
      ((session.client_openReader text).trans (openReader_state text session.client))
  | createFile text ifExists =>
    change (session.createFile text ifExists).client.tree = _
    rw [Session.client_createFile, createFile_state]
    rfl
  | list text => exact congrArg tree (list_state text session.client)
  | upload source text => exact tree_upload source text session.client
  | download text target => exact tree_download text target session.client
  | read index count? =>
    change (session.read index count?).client.tree = _
    rw [Session.client_read]
    split
    all_goals rfl
  | write index data =>
    change (session.write index data).client.tree = _
    rw [Session.client_write]
    dsimp only [treeAfterCall]
    cases session.writers[index]? with
    | none => rfl
    | some writer => exact congrArg tree (write_state writer data session.client)
  | _ => rfl

end MemoryClient

end LakeStore
