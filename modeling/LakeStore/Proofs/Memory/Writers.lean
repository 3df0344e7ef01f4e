import LakeStore.Proofs.Memory.Lasting

/-!
What becomes of a writer of a store in memory when its file is removed. Its writes fail as long as
no file is put at its path again. From then on they go to the end of the file that is there, as a
writer knows no more than its path.
-/

namespace LakeStore

namespace Memory.Tree

open StorePath

variable {tree : Tree} {path target : StorePath}

theorem file_of_addParents {now : Time}
    (h : (tree.addParents now target).typeAt? path = some .file) :
    tree.typeAt? path = some .file := by
  rw [typeAt?_eq] at h ⊢
  rw [get?_addParents] at h
  split at h
  . cases hnode : tree.get? path with
    | none =>
      rw [hnode] at h
      cases h
    | some node =>
      rw [hnode] at h
      exact h
  . exact h

theorem file_of_filter {keep : StorePath → Bool}
    (h : typeAt? (tree.filter keep) path = some .file) :
    tree.typeAt? path = some .file := by
  rw [typeAt?_filter] at h
  split at h
  . exact h
  . cases h

theorem file_of_putFile {now : Time} {data : ByteArray} {ifExists : IfExists} (hne : path ≠ target)
    (h : ((putFile now target data ifExists).outcome tree).2.typeAt? path = some .file) :
    tree.typeAt? path = some .file := by
  rw [putFile_outcome] at h
  split at h
  . exact h
  . dsimp only at h
    rw [typeAt?_insert, if_neg hne] at h
    exact file_of_addParents h

theorem file_of_createDirectory {now : Time}
    (h : ((createDirectory now target).run tree).2.typeAt? path = some .file) :
    tree.typeAt? path = some .file := by
  rw [createDirectory_run] at h
  split at h
  . exact h
  . exact h
  . split at h
    . exact h
    . dsimp only at h
      rw [typeAt?_insert] at h
      split at h
      . cases h
      . exact file_of_addParents h

theorem file_of_append {now : Time} {data : ByteArray}
    (h : ((append now target data).outcome tree).2.typeAt? path = some .file) :
    tree.typeAt? path = some .file := by
  rw [append_outcome] at h
  split at h
  . next old modified hnode =>
    dsimp only at h
    rw [typeAt?_insert] at h
    split at h
    . next heq =>
      rw [typeAt?_eq, heq, hnode]
      rfl
    . exact h
  . exact h

theorem file_of_markPendingDelete
    (h : ((markPendingDelete target).run tree).2.typeAt? path = some .file) :
    tree.typeAt? path = some .file := by
  rw [markPendingDelete_run] at h
  split at h
  . next node hnode =>
    dsimp only at h
    rw [typeAt?_insert] at h
    split at h
    . next heq =>
      rw [typeAt?_eq, heq, hnode]
      cases node <;> exact h
    . exact h
  . exact h

theorem file_of_delete (h : ((delete target).run tree).2.typeAt? path = some .file) :
    tree.typeAt? path = some .file := by
  rw [delete_run] at h
  split at h
  . exact file_of_filter h
  . exact h

theorem file_of_deleteRecursive
    (h : ((deleteRecursive target).run tree).2.typeAt? path = some .file) :
    tree.typeAt? path = some .file := by
  rw [deleteRecursive_run] at h
  split at h
  . exact file_of_filter h
  . exact h

theorem file_of_uploadEntry {now : Time} {root : StorePath} {transfer : Transfer}
    {entry : LocalEntry} (hroot : ¬ root <+: path)
    (h : ((uploadEntry now root transfer entry).run tree).2.typeAt? path = some .file) :
    tree.typeAt? path = some .file := by
  cases entry with
  | directory names =>
    unfold uploadEntry at h
    rw [Step.run_bind] at h
    split at h
    all_goals exact file_of_createDirectory h
  | file names data =>
    have hne : path ≠ root ++ names := fun heq => hroot (heq ▸ List.prefix_append root names)
    exact file_of_putFile hne h
  | unread source reason => exact h

theorem file_of_upload {now : Time} {root : StorePath} {entries : List LocalEntry}
    (hroot : ¬ root <+: path)
    (h : ((upload now root entries).run tree).2.typeAt? path = some .file) :
    tree.typeAt? path = some .file := by
  by_contra hnone
  let P : Transfer → Tree → Prop := fun _ tree => tree.typeAt? path ≠ some .file
  have hloop : ∀ transfer tree, P transfer tree → ∀ entry ∈ entries,
      P ((uploadEntry now root transfer entry).run tree).1
        ((uploadEntry now root transfer entry).run tree).2 := by
    intro transfer tree htree entry _ hentry
    exact htree (file_of_uploadEntry hroot hentry)
  have hafter : P ((upload now root entries).run tree).1 ((upload now root entries).run tree).2 :=
    Step.run_foldlM_of_step hloop hnone
  exact hafter h

end Memory.Tree

namespace MemoryClient

open Memory StorePath

variable {path : StorePath} {session : Session MemoryClient} {event : Event} {events : List Event}
  {writer : Writer} {index : Nat}

inductive PutsFile (client : MemoryClient) (path : StorePath) : Event → Prop where
  | createFile (text : String) (ifExists : IfExists) (hpath : ofString text = path)
      (hdone : ((StoreClient.createFile text ifExists : ClientM MemoryClient Writer).outcome
        client).1.isOk) :
      PutsFile client path (.called (.createFile text ifExists))
  | upload (source text : String) (hpath : ofString text <+: path)
      (hdone : ((upload source text).outcome client).2.tree.typeAt? path = some .file) :
      PutsFile client path (.called (.upload source text))

/-- Whether one of some events puts a file at a path. -/
def PutIn (session : Session MemoryClient) (path : StorePath) (events : List Event) : Prop :=
  ∃ front event rest, events = front ++ event :: rest ∧
    PutsFile (front.foldl Event.apply session).client path event

theorem file_of_createFile {text : String} {ifExists : IfExists}
    (hnot : ¬ PutsFile session.client path (.called (.createFile text ifExists)))
    (h : (session.createFile text ifExists).client.tree.typeAt? path = some .file) :
    session.client.tree.typeAt? path = some .file := by
  have houtcome := createFile_outcome text ifExists session.client
  rw [Session.client_createFile] at h
  by_cases heq : path = ofString text
  . cases hput : session.client.tree.putRefusal? (ofString text) ifExists with
    | some error =>
      rw [houtcome, hput] at h
      exact h
    | none =>
      apply absurd (PutsFile.createFile text ifExists heq.symm _) hnot
      rw [houtcome, hput]
      rfl
  . rw [createFile_state] at h
    exact Tree.file_of_putFile heq h

theorem file_of_upload {source text : String}
    (hnot : ¬ PutsFile session.client path (.called (.upload source text)))
    (h : ((upload source text).outcome session.client).2.tree.typeAt? path = some .file) :
    session.client.tree.typeAt? path = some .file := by
  by_cases hpath : ofString text <+: path
  . exact absurd (.upload source text hpath h) hnot
  . rw [tree_upload] at h
    split at h
    . exact Tree.file_of_upload hpath h
    . exact h

theorem file_of_apply (hnot : ¬ PutsFile session.client path event)
    (h : (event.apply session).client.tree.typeAt? path = some .file) :
    session.client.tree.typeAt? path = some .file := by
  cases event with
  | hostChanged disk hdisk => exact h
  | markedPendingDelete text => exact Tree.file_of_markPendingDelete h
  | called call =>
    change (session.step call).client.tree.typeAt? path = some .file at h
    cases call with
    | createFile text ifExists => exact file_of_createFile hnot h
    | delete text => exact Tree.file_of_delete h
    | createDirectory text => exact Tree.file_of_createDirectory h
    | deleteRecursive text => exact Tree.file_of_deleteRecursive h
    | upload source text => exact file_of_upload hnot h
    | write index data =>
      rw [tree_step] at h
      dsimp only [treeAfterCall] at h
      split at h
      . exact Tree.file_of_append h
      . exact h
    | _ =>
      rw [tree_step] at h
      exact h

theorem putIn_of_file (hnone : session.client.tree.typeAt? path ≠ some .file)
    (h : (events.foldl Event.apply session).client.tree.typeAt? path = some .file) :
    PutIn session path events := by
  induction events generalizing session with
  | nil => exact absurd h hnone
  | cons event events ih =>
    by_cases hputs : PutsFile session.client path event
    . exact ⟨[], event, events, rfl, hputs⟩
    . have hstill : (event.apply session).client.tree.typeAt? path ≠ some .file :=
        fun hfile => hnone (file_of_apply hputs hfile)
      obtain ⟨front, later, rest, hevents, hlater⟩ := ih hstill h
      exact ⟨event :: front, later, rest, by rw [hevents]; rfl, hlater⟩

theorem typeAt?_of_removes (h : Removes session.client path event) :
    (event.apply session).client.tree.typeAt? path = none := by
  cases h with
  | delete text hpath hdone =>
    subst hpath
    have htrue : ((Tree.delete (ofString text)).run session.client.tree).1 = true :=
      Except.ok.inj hdone
    change ((Tree.delete (ofString text)).run session.client.tree).2.typeAt? (ofString text) = none
    rw [Tree.delete_run] at htrue ⊢
    split at htrue
    . next hremovable =>
      rw [if_pos hremovable]
      unfold PathMap.erase
      dsimp only
      rw [Tree.typeAt?_filter, if_neg (by simp)]
    . cases htrue
  | deleteRecursive text hpath hdone =>
    have htrue : ((Tree.deleteRecursive (ofString text)).run session.client.tree).1 = true :=
      Except.ok.inj hdone
    change ((Tree.deleteRecursive (ofString text)).run session.client.tree).2.typeAt? path = none
    rw [Tree.deleteRecursive_run] at htrue ⊢
    split at htrue
    . next hremovable =>
      rw [if_pos hremovable]
      unfold PathMap.eraseFrom
      dsimp only
      rw [Tree.typeAt?_filter, if_neg (by simpa using hpath)]
    . cases htrue

theorem write_of_not_file (h : session.client.tree.typeAt? writer.path ≠ some .file)
    (data : ByteArray) :
    (StoreClient.write writer data : Step MemoryClient StreamError Writer).outcome session.client =
      (.error (.removed writer.path.text), session.client) := by
  rw [write_outcome]
  rw [Tree.typeAt?_eq] at h
  split
  . next old modified hnode =>
    rw [hnode] at h
    exact absurd rfl h
  . rfl

theorem writers_apply (h : session.writers[index]? = some writer) (event : Event) :
    (event.apply session).writers[index]? = some writer := by
  cases event with
  | hostChanged disk hdisk => exact h
  | markedPendingDelete text => exact h
  | called call =>
    unfold Event.apply Session.step
    cases call with
    | openReader text =>
      dsimp only
      unfold Session.openReader
      split
      all_goals exact h
    | createFile text ifExists =>
      dsimp only
      unfold Session.createFile
      split
      . exact List.getElem?_append_left (List.getElem?_eq_some_iff.mp h).1 ▸ h
      . exact h
    | read other count? =>
      dsimp only
      unfold Session.read
      split
      all_goals exact h
    | write other data =>
      dsimp only
      unfold Session.write
      split
      . exact h
      . next found hfound =>
        split
        . next same client houtcome =>
          have hsame : same = found := by
            rw [write_outcome] at houtcome
            split at houtcome
            all_goals cases houtcome
            rfl
          dsimp only
          rw [List.getElem?_set]
          split
          . next heq =>
            subst heq
            rw [h] at hfound
            rw [if_pos (List.getElem?_eq_some_iff.mp h).1, hsame, hfound]
          . exact h
        . exact h
    | _ => exact h

theorem writers_foldl_apply (h : session.writers[index]? = some writer) (events : List Event) :
    (events.foldl Event.apply session).writers[index]? = some writer := by
  induction events generalizing session with
  | nil => exact h
  | cons event events ih => exact ih (writers_apply h event)

theorem writers_createFile {text : String} {ifExists : IfExists}
    (hdone : ((StoreClient.createFile text ifExists : ClientM MemoryClient Writer).outcome
      session.client).1.isOk) :
    (session.createFile text ifExists).writers[session.writers.length]? = some ⟨ofString text⟩ := by
  unfold Session.createFile
  split
  . next made client houtcome =>
    have hmade : made = ⟨ofString text⟩ := by
      rw [createFile_outcome] at houtcome
      split at houtcome
      all_goals cases houtcome
      rfl
    rw [hmade]
    exact List.getElem?_concat_length
  . next error client houtcome =>
    rw [houtcome] at hdone
    cases hdone

/--
A file that was created through a writer is removed. Later the writer is still there, and each of
its writes fails and changes nothing, unless a file was put at its path again. A write goes to the
end of the file that is at the path then, and there is no other entry that it changes.
-/
theorem writes_after_removal (account : String) (host : Disk) (before : List Event) (text : String)
    (ifExists : IfExists) (between : List Event) (removal : Event) (later : List Event)
    (hcreated : ((StoreClient.createFile text ifExists : ClientM MemoryClient Writer).outcome
      (after account host before).client).1.isOk)
    (hremoved : Removes
      (after account host (before ++ .called (.createFile text ifExists) :: between)).client
        (ofString text) removal) :
    let gone :=
      after account host (before ++ .called (.createFile text ifExists) :: between ++ [removal])
    let session := later.foldl Event.apply gone
    let writer := Writer.mk (ofString text)
    session.writers[(after account host before).writers.length]? = some writer ∧
    (¬ PutIn gone (ofString text) later → ∀ data,
      (StoreClient.write writer data : Step MemoryClient StreamError Writer).outcome
        session.client = (.error (.removed (ofString text).text), session.client)) ∧
    ∀ data, (StoreClient.write writer data : Step MemoryClient StreamError Writer).outcome
        session.client =
      match session.client.tree.get? (ofString text) with
      | some (.file old _) => (.ok writer, { session.client with
          tree := session.client.tree.insert (ofString text)
            (.file (old ++ data) (some session.client.disk.clock)) })
      | _ => (.error (.removed (ofString text).text), session.client) := by
  intro gone session writer
  have hgone : gone.client.tree.typeAt? (ofString text) ≠ some .file := by
    unfold gone
    rw [after_append]
    change (removal.apply _).client.tree.typeAt? (ofString text) ≠ some .file
    rw [typeAt?_of_removes hremoved]
    simp
  refine ⟨?_, ?_, fun data => write_outcome writer data session.client⟩
  . have hwriter := writers_createFile hcreated
    apply writers_foldl_apply
    unfold gone
    rw [after_append, after_append]
    apply writers_foldl_apply
    exact writers_foldl_apply hwriter between
  . intro hnot data
    apply write_of_not_file
    intro hfile
    exact hnot (putIn_of_file hgone hfile)

theorem writes_after_removal_of_directory :
    let writer := Writer.mk ["a", "b"]
    let created := [Event.called (.createFile "b" .fail), .called (.createFile "a/b" .fail)]
    let gone := after "acct" (.empty default) (created ++ [.called (.deleteRecursive "a")])
    let blocked := [Event.called (.createDirectory "a/b")].foldl Event.apply gone
    let again := [Event.called (.createFile "a//b" .fail)].foldl Event.apply gone
    blocked.writers[1]? = some writer ∧
      (StoreClient.write writer "x".toUTF8 : Step MemoryClient StreamError Writer).outcome
        blocked.client = (.error (.removed "/a/b"), blocked.client) ∧
      again.writers[1]? = some writer ∧
      PutIn gone ["a", "b"] [.called (.createFile "a//b" .fail)] ∧
      (StoreClient.write writer "x".toUTF8 : Step MemoryClient StreamError Writer).outcome
        again.client = (.ok writer, { again.client with
          tree := again.client.tree.insert ["a", "b"]
            (.file (ByteArray.empty ++ "x".toUTF8) (some default)) }) := by
  intro writer created gone blocked again
  have hcreated : ((StoreClient.createFile "a/b" .fail : ClientM MemoryClient Writer).outcome
      (after "acct" (.empty default) [.called (.createFile "b" .fail)]).client).1.isOk := by decide
  have hremoved : Removes (after "acct" (.empty default) created).client (ofString "a/b")
      (.called (.deleteRecursive "a")) := .deleteRecursive "a" (by decide) (by decide)
  have hrun := fun later =>
    writes_after_removal "acct" (.empty default) [.called (.createFile "b" .fail)] "a/b"
    .fail [] (.called (.deleteRecursive "a")) later hcreated hremoved
  have hblocked := hrun [.called (.createDirectory "a/b")]
  have hagain := hrun [.called (.createFile "a//b" .fail)]
  have hput : PutIn gone ["a", "b"] [.called (.createFile "a//b" .fail)] :=
    ⟨[], _, [], rfl, .createFile "a//b" .fail (by decide) (by decide)⟩
  refine ⟨hblocked.1, ?_, hagain.1, hput, ?_⟩
  . apply hblocked.2.1
    rintro ⟨front, event, rest, hevents, hputs⟩
    obtain ⟨rfl, rfl, rfl⟩ : front = [] ∧ event = .called (.createDirectory "a/b") ∧ rest = [] := by
      simpa [List.singleton_eq_append_iff] using hevents
    cases hputs
  . exact hagain.2.2 "x".toUTF8

end MemoryClient

end LakeStore
