import LakeStore.Proofs.Memory.Effect

/-!
Entries of a store in memory last. Only a removal takes an entry away or leaves an entry of another
type at its path, so that, of the files that are created at one path on the condition that nothing
is there, all but one are created after a removal.
-/

namespace LakeStore

namespace Memory

open StorePath

def Node.type : Node → EntryType
  | .directory _ => .directory
  | .file .. => .file

namespace Tree

variable {tree : Tree} {path target : StorePath} {type : EntryType}

def typeAt? (tree : Tree) (path : StorePath) : Option EntryType :=
  (tree.entryAt? path).map (·.type)

theorem typeAt?_eq (tree : Tree) (path : StorePath) :
    tree.typeAt? path = (tree.get? path).map Node.type := by
  unfold typeAt? entryAt?
  cases tree.get? path with
  | none => rfl
  | some node => cases node <;> rfl

theorem typeAt?_insert (tree : Tree) (target : StorePath) (node : Node) (path : StorePath) :
    typeAt? (tree.insert target node) path =
      if path = target then some node.type else tree.typeAt? path := by
  rw [typeAt?_eq, typeAt?_eq, PathMap.get?_insert]
  split
  all_goals rfl

theorem typeAt?_eq_some_iff : tree.typeAt? path = some type ↔ ∃ node,
      tree.get? path = some node ∧ node.type = type := by
  rw [typeAt?_eq, Option.map_eq_some_iff]

theorem typeAt?_filter (tree : Tree) (keep : StorePath → Bool) (path : StorePath) :
    typeAt? (tree.filter keep) path = if keep path then tree.typeAt? path else none := by
  rw [typeAt?_eq, typeAt?_eq, PathMap.get?_filter]
  split
  all_goals rfl

theorem typeAt?_addParents (h : tree.typeAt? path = some type) (now : Time) (target : StorePath) :
    (tree.addParents now target).typeAt? path = some type := by
  rw [typeAt?_eq_some_iff] at h ⊢
  obtain ⟨node, hnode, htype⟩ := h
  exact ⟨node, kept_addParents hnode now target, htype⟩

theorem typeAt?_of_putRefusal? {ifExists : IfExists} (h : tree.typeAt? path = some type)
    (hput : tree.putRefusal? path ifExists = none) : type = .file ∧ ifExists = .overwrite := by
  rw [typeAt?_eq] at h
  obtain ⟨node, hnode, htype⟩ := Option.map_eq_some_iff.mp h
  unfold putRefusal? at hput
  rw [hnode] at hput
  cases node with
  | directory modified => cases hput
  | file data modified =>
    cases ifExists with
    | fail => cases hput
    | overwrite => exact ⟨htype.symm, rfl⟩

theorem typeAt?_putFile (h : tree.typeAt? path = some type) (now : Time) (target : StorePath)
    (data : ByteArray) (ifExists : IfExists) :
    ((putFile now target data ifExists).outcome tree).2.typeAt? path = some type := by
  rw [putFile_outcome]
  split
  . exact h
  . next hput =>
    dsimp only
    rw [typeAt?_insert]
    split
    . next heq =>
      subst heq
      rw [(typeAt?_of_putRefusal? h hput).1]
      rfl
    . exact typeAt?_addParents h now target

theorem typeAt?_createDirectory (h : tree.typeAt? path = some type) (now : Time)
    (target : StorePath) :
    ((createDirectory now target).run tree).2.typeAt? path = some type := by
  rw [typeAt?_eq_some_iff] at h ⊢
  obtain ⟨node, hnode, htype⟩ := h
  exact ⟨node, kept_createDirectory hnode now target, htype⟩

theorem typeAt?_append (h : tree.typeAt? path = some type) (now : Time) (target : StorePath)
    (data : ByteArray) :
    ((append now target data).outcome tree).2.typeAt? path = some type := by
  rw [append_outcome]
  split
  . next old modified hnode =>
    dsimp only
    rw [typeAt?_insert]
    split
    . next heq =>
      rw [typeAt?_eq, heq, hnode] at h
      exact h
    . exact h
  . exact h

theorem typeAt?_markPendingDelete (h : tree.typeAt? path = some type) (target : StorePath) :
    ((markPendingDelete target).run tree).2.typeAt? path = some type := by
  rw [markPendingDelete_run]
  split
  . next node hnode =>
    dsimp only
    rw [typeAt?_insert]
    split
    . next heq =>
      rw [typeAt?_eq, heq, hnode] at h
      cases node <;> exact h
    . exact h
  . exact h

theorem typeAt?_uploadEntry (h : tree.typeAt? path = some type) (now : Time) (root : StorePath)
    (transfer : Transfer) (entry : LocalEntry) :
    ((uploadEntry now root transfer entry).run tree).2.typeAt? path = some type := by
  cases entry with
  | directory names =>
    have hcreate := typeAt?_createDirectory h now (root ++ names)
    unfold uploadEntry
    rw [Step.run_bind]
    split
    all_goals exact hcreate
  | file names data => exact typeAt?_putFile h now (root ++ names) data .overwrite
  | unread source reason => exact h

theorem typeAt?_upload (h : tree.typeAt? path = some type) (now : Time) (root : StorePath)
    (entries : List LocalEntry) :
    ((upload now root entries).run tree).2.typeAt? path = some type := by
  let P : Transfer → Tree → Prop := fun _ tree => tree.typeAt? path = some type
  have hloop : ∀ transfer tree, P transfer tree → ∀ entry ∈ entries,
      P ((uploadEntry now root transfer entry).run tree).1
        ((uploadEntry now root transfer entry).run tree).2 := by
    intro transfer tree htree entry _
    exact typeAt?_uploadEntry htree now root transfer entry
  exact Step.run_foldlM_of_step hloop h

theorem typeAt?_delete (h : tree.typeAt? path = some type)
    (hkept : target = path → ((delete target).run tree).1 ≠ true) :
    ((delete target).run tree).2.typeAt? path = some type := by
  rw [typeAt?_eq_some_iff] at h ⊢
  obtain ⟨node, hnode, htype⟩ := h
  exact ⟨node, kept_delete hnode hkept, htype⟩

theorem typeAt?_deleteRecursive (h : tree.typeAt? path = some type)
    (hkept : target <+: path → ((deleteRecursive target).run tree).1 ≠ true) :
    ((deleteRecursive target).run tree).2.typeAt? path = some type := by
  rw [typeAt?_eq_some_iff] at h ⊢
  obtain ⟨node, hnode, htype⟩ := h
  exact ⟨node, kept_deleteRecursive hnode hkept, htype⟩

end Tree

end Memory

namespace MemoryClient

open Memory StorePath

variable {path : StorePath} {type : EntryType} {session : Session MemoryClient} {event : Event}

/--
The events that remove the entry at a path, with all that is below it or with a directory above it.
-/
inductive Removes (client : MemoryClient) (path : StorePath) : Event → Prop where
  | delete (text : String) (hpath : ofString text = path)
      (hdone : ((StoreClient.delete text : ClientM MemoryClient Bool).outcome client).1 =
        .ok true) :
      Removes client path (.called (.delete text))
  | deleteRecursive (text : String) (hpath : ofString text <+: path)
      (hdone : ((StoreClient.deleteRecursive text : ClientM MemoryClient Bool).outcome client).1 =
        .ok true) :
      Removes client path (.called (.deleteRecursive text))

/-- Whether the entry at a path is removed by one of some events. -/
def RemovedIn (session : Session MemoryClient) (path : StorePath) (events : List Event) : Prop :=
  ∃ front event rest, events = front ++ event :: rest ∧
    Removes (front.foldl Event.apply session).client path event

def createsNew (session : Session MemoryClient) (path : StorePath) : Event → Bool
  | .called (.createFile text .fail) =>
    ofString text = path &&
      ((StoreClient.createFile text .fail : ClientM MemoryClient Writer).outcome
        session.client).1.isOk
  | _ => false

def newCreations (session : Session MemoryClient) (path : StorePath) : List Event → Nat
  | [] => 0
  | event :: rest =>
    (if createsNew session path event then 1 else 0) + newCreations (event.apply session) path rest

theorem typeAt?_apply (h : session.client.tree.typeAt? path = some type)
    (hkept : ¬ Removes session.client path event) :
    (event.apply session).client.tree.typeAt? path = some type := by
  cases event with
  | hostChanged disk hdisk => exact h
  | markedPendingDelete text => exact Tree.typeAt?_markPendingDelete h (ofString text)
  | called call =>
    change (session.step call).client.tree.typeAt? path = some type
    rw [tree_step]
    cases call with
    | createFile text ifExists =>
      exact Tree.typeAt?_putFile h session.client.disk.clock
        (ofString text) ByteArray.empty ifExists
    | delete text =>
      apply Tree.typeAt?_delete h
      intro hpath hdone
      apply hkept
      exact .delete text hpath (congrArg Except.ok hdone)
    | createDirectory text =>
      exact Tree.typeAt?_createDirectory h session.client.disk.clock (ofString text)
    | deleteRecursive text =>
      apply Tree.typeAt?_deleteRecursive h
      intro hpath hdone
      apply hkept
      exact .deleteRecursive text hpath (congrArg Except.ok hdone)
    | upload source text =>
      dsimp only [treeAfterCall]
      split
      . next entries _ =>
        exact Tree.typeAt?_upload h session.client.disk.clock (ofString text) entries
      . exact h
    | write index data =>
      dsimp only [treeAfterCall]
      split
      . next writer _ => exact Tree.typeAt?_append h session.client.disk.clock writer.path data
      . exact h
    | _ => exact h

theorem not_removedIn_cons {events : List Event} (h : ¬ RemovedIn session path (event :: events)) :
    ¬ Removes session.client path event ∧ ¬ RemovedIn (event.apply session) path events := by
  constructor
  . intro hremoves
    exact h ⟨[], event, events, rfl, hremoves⟩
  . rintro ⟨front, later, rest, rfl, hremoves⟩
    exact h ⟨event :: front, later, rest, rfl, hremoves⟩

theorem typeAt?_foldl_apply (h : session.client.tree.typeAt? path = some type) {events : List Event}
    (hkept : ¬ RemovedIn session path events) :
    (events.foldl Event.apply session).client.tree.typeAt? path = some type := by
  induction events generalizing session with
  | nil => exact h
  | cons event events ih =>
    obtain ⟨hevent, hrest⟩ := not_removedIn_cons hkept
    rw [List.foldl_cons]
    exact ih (typeAt?_apply h hevent) hrest

theorem typeAt?_of_createsNew (h : createsNew session path event) :
    session.client.tree.typeAt? path = none ∧
      (event.apply session).client.tree.typeAt? path = some .file := by
  unfold createsNew at h
  split at h
  . next text =>
    rw [Bool.and_eq_true, decide_eq_true_eq] at h
    obtain ⟨rfl, hdone⟩ := h
    change (((onTree fun now => Tree.putFile now (ofString text) ByteArray.empty .fail) >>= fun _ =>
      pure (Writer.mk (ofString text))).outcome session.client).1.isOk at hdone
    rw [Step.outcome_bind_pure, onTree_outcome, Tree.putFile_outcome] at hdone
    unfold Event.apply Session.step
    dsimp only
    rw [Session.client_createFile, createFile_state, Tree.putFile_outcome]
    cases hput : session.client.tree.putRefusal? (ofString text) .fail with
    | some error =>
      rw [hput] at hdone
      cases hdone
    | none =>
      constructor
      . cases htype : session.client.tree.typeAt? (ofString text) with
        | none => rfl
        | some type => cases (Tree.typeAt?_of_putRefusal? htype hput).2
      . dsimp only
        rw [Tree.typeAt?_insert, if_pos rfl]
        rfl
  . cases h

theorem newCreations_eq_zero (h : session.client.tree.typeAt? path = some type)
    {events : List Event} (hkept : ¬ RemovedIn session path events) :
    newCreations session path events = 0 := by
  induction events generalizing session with
  | nil => rfl
  | cons event events ih =>
    obtain ⟨hevent, hrest⟩ := not_removedIn_cons hkept
    have hnot : ¬ createsNew session path event := by
      intro hcreates
      rw [(typeAt?_of_createsNew hcreates).1] at h
      cases h
    unfold newCreations
    rw [if_neg hnot, ih (typeAt?_apply h hevent) hrest]

theorem newCreations_le_one {events : List Event} (hkept : ¬ RemovedIn session path events) :
    newCreations session path events ≤ 1 := by
  induction events generalizing session with
  | nil => exact Nat.zero_le 1
  | cons event events ih =>
    obtain ⟨_, hrest⟩ := not_removedIn_cons hkept
    unfold newCreations
    split
    . next hcreates =>
      have hnone := newCreations_eq_zero (typeAt?_of_createsNew hcreates).2 hrest
      omega
    . rw [Nat.zero_add]
      exact ih hrest

theorem after_append (account : String) (disk : Disk) (before between : List Event) :
    after account disk (before ++ between) =
      between.foldl Event.apply (after account disk before) :=
  List.foldl_append

/--
Where an entry is gone or has another type, it was removed in between, and so it was where two files
were created at one path, each on the condition that nothing is there.
-/
theorem entries_last_until_removed (account : String) (host : Disk) (before between : List Event)
    (path : StorePath) :
    (∀ type, (after account host before).client.tree.typeAt? path = some type →
      (after account host (before ++ between)).client.tree.typeAt? path ≠ some type →
      RemovedIn (after account host before) path between) ∧
    (1 < newCreations (after account host before) path between →
      RemovedIn (after account host before) path between) := by
  constructor
  . intro type hthere hchanged
    by_contra hkept
    apply hchanged
    rw [after_append]
    exact typeAt?_foldl_apply hthere hkept
  . intro htwice
    by_contra hkept
    have hone := newCreations_le_one hkept
    omega

theorem entries_last_until_removed_above :
    let before := [Event.called (.createFile "a/b" .fail), .called (.createFile "/a/./b" .fail)]
    let between := [Event.called (.createFile "a//b" .fail), .called (.deleteRecursive "c/../a"),
      .called (.createFile "a/b/" .fail), .called (.delete "a/b"),
      .called (.createFile "/a/b" .fail)]
    (after "acct" (.empty default) before).client.tree.typeAt? ["a"] = some .directory ∧
      newCreations (after "acct" (.empty default) before) ["a", "b"] between = 2 ∧
      RemovedIn (after "acct" (.empty default) before) ["a", "b"] between ∧
      (after "acct" (.empty default) (before ++ between.take 2)).client.tree.typeAt? ["a"] = none ∧
      RemovedIn (after "acct" (.empty default) before) ["a"] (between.take 2) := by
  intro before between
  have hdirectory : (after "acct" (.empty default) before).client.tree.typeAt? ["a"] =
      some .directory := by
    decide
  have htwice : newCreations (after "acct" (.empty default) before) ["a", "b"] between =
      2 := by decide
  have hgone : (after "acct" (.empty default) (before ++ between.take 2)).client.tree.typeAt?
      ["a"] = none := by
    decide
  refine ⟨hdirectory, htwice, ?_, hgone, ?_⟩
  . apply (entries_last_until_removed "acct" (.empty default) before between ["a", "b"]).2
    omega
  . apply (entries_last_until_removed "acct" (.empty default) before (between.take 2) ["a"]).1
      .directory hdirectory
    rw [hgone]
    simp

end MemoryClient

end LakeStore
