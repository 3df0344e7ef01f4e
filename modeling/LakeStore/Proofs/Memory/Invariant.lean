import LakeStore.Memory.Client
import LakeStore.Proofs.Host.Walk
import LakeStore.Proofs.Memory.Tree

/-!
The invariant of the tree in memory: each step on it keeps its contents well formed, and so does the
transfer of a local tree, whatever the local tree is.
-/

namespace LakeStore.Memory

def LocalEntry.names : LocalEntry → StorePath
  | .directory names => names
  | .file names _ => names
  | .unread .. => []

namespace Tree

open StorePath

variable {tree : Tree} {path : StorePath}

theorem contents_empty_wellFormed (now : Time) : (Tree.empty now).contents.WellFormed := by
  have hget : ∀ path, (Tree.empty now).contents path = if path = [] then some .directory else
      none := by
    intro path
    unfold Tree.empty
    rw [contents_insert]
    rfl
  refine ⟨?_, ?_, ?_, ?_⟩
  . rw [hget, if_pos rfl]
  . intro path hpath
    rw [hget] at hpath
    split at hpath
    . next heq => rw [heq]; exact canonical_nil
    . exact absurd rfl hpath
  . intro path above hpath habove
    rw [hget] at hpath
    split at hpath
    . next heq =>
      rw [heq] at habove
      exact absurd habove (not_below_nil above)
    . exact absurd rfl hpath
  . intro path target
    exact contents_ne_link _ path target

theorem putFile_wellFormed (h : tree.contents.WellFormed) (hpath : path.Canonical) (now : Time)
    (data : ByteArray) (ifExists : IfExists) :
    ((putFile now path data ifExists).outcome tree).2.contents.WellFormed := by
  rw [putFile_outcome]
  cases hrefusal : tree.putRefusal? path ifExists with
  | some error => exact h
  | none =>
    rw [putRefusal?_eq_none_iff h] at hrefusal
    dsimp only
    rw [contents_putFile h hrefusal.1]
    exact h.put hpath hrefusal.1.1 data

theorem createDirectory_wellFormed (h : tree.contents.WellFormed) (hpath : path.Canonical)
    (now : Time) :
    ((createDirectory now path).run tree).2.contents.WellFormed := by
  by_cases hput : tree.contents.CanPutDirectory path
  . obtain ⟨after, hrun, hafter⟩ := createDirectory_of_canPut h hput now
    rw [hrun, hafter]
    exact h.putDirectory hpath
  . rw [createDirectory_of_not_canPut h hput now]
    exact h

theorem delete_wellFormed (h : tree.contents.WellFormed) (path : StorePath) :
    ((delete path).run tree).2.contents.WellFormed := by
  rw [delete_run]
  split
  . next hremovable =>
    rw [removable_iff h] at hremovable
    dsimp only
    rw [contents_erase_of_canDelete hremovable]
    exact h.without hremovable.1
  . exact h

theorem deleteRecursive_wellFormed (h : tree.contents.WellFormed) (path : StorePath) :
    ((deleteRecursive path).run tree).2.contents.WellFormed := by
  rw [deleteRecursive_run]
  split
  . next hremovable =>
    rw [Bool.and_eq_true, decide_eq_true_eq] at hremovable
    dsimp only
    rw [contents_eraseFrom]
    exact h.without hremovable.1
  . exact h

theorem insert_wellFormed (h : tree.contents.WellFormed) {old new : Node}
    (hold : tree.get? path = some old)
    (hkind : old.content = .directory → new.content = .directory) :
    (Tree.contents (tree.insert path new)).WellFormed := by
  have hsome : tree.contents path = some old.content := by
    rw [contents, hold, Option.map_some]
  have hdirectory : ∀ other, tree.contents other = some .directory →
      Tree.contents (tree.insert path new) other = some .directory := by
    intro other hother
    rw [contents_insert]
    dsimp only
    split
    . next heq =>
      rw [heq, hsome, Option.some_inj] at hother
      rw [hkind hother]
    . exact hother
  have hpresent : ∀ other, Tree.contents (tree.insert path new) other ≠ none →
      tree.contents other ≠ none := by
    intro other hother
    rw [contents_insert] at hother
    dsimp only at hother
    split at hother
    . next heq => simp [heq, hsome]
    . exact hother
  refine ⟨?_, ?_, ?_, ?_⟩
  . exact hdirectory [] h.root
  . intro other hother
    exact h.canonical other (hpresent other hother)
  . intro other above hother habove
    apply hdirectory
    exact h.closed other above (hpresent other hother) habove
  . intro other target
    exact contents_ne_link _ other target

theorem append_wellFormed (h : tree.contents.WellFormed) (now : Time) (path : StorePath)
    (data : ByteArray) : ((append now path data).outcome tree).2.contents.WellFormed := by
  rw [append_outcome]
  split
  . next old modified hnode =>
    apply insert_wellFormed h hnode
    intro hkind
    cases hkind
  . exact h

theorem markPendingDelete_wellFormed (h : tree.contents.WellFormed) (path : StorePath) :
    ((markPendingDelete path).run tree).2.contents.WellFormed := by
  rw [markPendingDelete_run]
  split
  . next node hnode =>
    apply insert_wellFormed h hnode
    intro hkind
    cases node with
    | directory modified => rfl
    | file data modified => exact hkind
  . exact h

theorem uploadEntry_wellFormed (h : tree.contents.WellFormed) {root : StorePath}
    {entry : LocalEntry} (htarget : (root ++ entry.names).Canonical) (now : Time)
    (transfer : Transfer) :
    ((uploadEntry now root transfer entry).run tree).2.contents.WellFormed := by
  cases entry with
  | directory names =>
    have hcreate := createDirectory_wellFormed h htarget now
    unfold uploadEntry
    rw [Step.run_bind]
    split
    all_goals exact hcreate
  | file names data => exact putFile_wellFormed h htarget now data .overwrite
  | unread path reason => exact h

theorem upload_wellFormed (h : tree.contents.WellFormed) {root : StorePath}
    {entries : List LocalEntry} (hroot : root.Canonical)
    (hentries : ∀ entry ∈ entries, entry.names.Canonical) (now : Time) :
    ((upload now root entries).run tree).2.contents.WellFormed := by
  unfold upload
  let P : Transfer → Tree → Prop := fun _ tree => tree.contents.WellFormed
  have hloop : ∀ transfer tree, P transfer tree → ∀ entry ∈ entries,
      P ((uploadEntry now root transfer entry).run tree).1
        ((uploadEntry now root transfer entry).run tree).2 := by
    intro transfer tree htree entry hentry
    apply uploadEntry_wellFormed htree
    rw [canonical_append]
    exact ⟨hroot, hentries entry hentry⟩
  exact Step.run_foldlM_of_step hloop h

end Tree

end LakeStore.Memory
