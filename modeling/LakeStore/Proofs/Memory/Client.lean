import LakeStore.Proofs.Memory.Invariant
import LakeStore.Proofs.Store.Session

/-!
Runs of the client in memory: its calls, entries that are marked as about to be deleted, and changes
that others make to the host in between. In every state that a run reaches the keys of the tree are
normal paths, and what is above a key is a directory.
-/

namespace LakeStore.MemoryClient

open Memory StorePath

/-- What every call can rely on, and leaves behind. -/
structure Sound (account : String) (client : MemoryClient) : Prop where
  account : client.account = account
  tree : client.tree.contents.WellFormed
  disk : client.disk.WellFormed

variable {client : MemoryClient} {account : String}

theorem new_sound (account : String) {disk : Disk} (h : disk.WellFormed) :
    (new account disk).Sound account :=
  ⟨rfl, Tree.contents_empty_wellFormed disk.clock, h⟩

theorem onTree_outcome {ε α : Type} (step : Time → Step Tree ε α) (client : MemoryClient) :
    (onTree step).outcome client =
      (((step client.disk.clock).outcome client.tree).1,
        { client with tree := ((step client.disk.clock).outcome client.tree).2 }) := rfl

theorem onDisk_outcome {ε α : Type} (step : Step Disk ε α) (client : MemoryClient) :
    (onDisk step).outcome client =
      ((step.outcome client.disk).1, { client with disk := (step.outcome client.disk).2 }) := rfl

theorem createFile_outcome (path : String) (ifExists : IfExists) (client : MemoryClient) :
    (StoreClient.createFile path ifExists : ClientM MemoryClient _).outcome client =
      match client.tree.putRefusal? (ofString path) ifExists with
      | some error => (.error error, client)
      | none => (.ok (Writer.mk (ofString path)), { client with
          tree := (client.tree.addParents client.disk.clock (ofString path)).insert (ofString path)
            (.file ByteArray.empty (some client.disk.clock)) }) := by
  change ((onTree fun now => Tree.putFile now (ofString path) ByteArray.empty ifExists) >>= fun _ =>
    pure (Writer.mk (ofString path))).outcome client = _
  rw [Step.outcome_bind_pure, onTree_outcome, Tree.putFile_outcome]
  cases client.tree.putRefusal? (ofString path) ifExists <;> rfl

theorem write_outcome (writer : Writer) (data : ByteArray) (client : MemoryClient) :
    (StoreClient.write writer data : Step MemoryClient StreamError _).outcome client =
      match client.tree.get? writer.path with
      | some (.file old _) => (.ok writer, { client with
          tree := client.tree.insert writer.path (.file (old ++ data) (some client.disk.clock)) })
      | _ => (.error (.removed writer.path.text), client) := by
  change ((onTree fun now => Tree.append now writer.path data) >>= fun _ =>
    pure writer).outcome client = _
  rw [Step.outcome_bind_pure, onTree_outcome, Tree.append_outcome]
  cases client.tree.get? writer.path with
  | none => rfl
  | some node => cases node <;> rfl

theorem onTree_sound {ε α : Type} (h : client.Sound account) {step : Time → Step Tree ε α}
    (hstep : ((step client.disk.clock).outcome client.tree).2.contents.WellFormed) :
    ((onTree step).outcome client).2.Sound account :=
  ⟨h.account, hstep, h.disk⟩

theorem canonical_of_localEntryOf? {disk : Disk} {source : String} {item : WalkItem}
    {entry : LocalEntry} (hitem : item.names.Canonical)
    (h : localEntryOf? disk source item = some entry) :
    entry.names.Canonical := by
  unfold localEntryOf? at h
  split at h
  . cases h
    exact hitem
  . dsimp only at h
    split at h
    . cases h
      exact hitem
    . cases h
      exact canonical_nil
  . cases h
  . cases h
    exact canonical_nil

theorem canonical_of_localEntries {disk : Disk} (h : disk.WellFormed) {source : String}
    {entries : List LocalEntry} (hentries : localEntries disk source = .ok entries) :
    ∀ entry ∈ entries, entry.names.Canonical := by
  intro entry hentry
  unfold localEntries at hentries
  cases hfind : disk.find source with
  | error error =>
    rw [hfind] at hentries
    cases hentries
  | ok spot =>
    rw [hfind] at hentries
    have hwalk : entry ∈ (disk.walk source).filterMap (localEntryOf? disk source) →
        entry.names.Canonical := by
      intro hmem
      rw [List.mem_filterMap] at hmem
      obtain ⟨item, hitem, hlocal⟩ := hmem
      exact canonical_of_localEntryOf? (Disk.canonical_of_mem_walk h hitem) hlocal
    cases spot with
    | free location name => cases hentries
    | taken location node =>
      cases node with
      | directory modified =>
        cases hentries
        exact hwalk hentry
      | link target modified =>
        cases hentries
        exact hwalk hentry
      | file id =>
        cases hentries
        rw [List.mem_singleton] at hentry
        rw [hentry]
        exact canonical_nil

theorem upload_sound (h : client.Sound account) (source path : String) :
    ((upload source path).outcome client).2.Sound account := by
  unfold upload
  rw [Step.outcome_bind_ok (Step.outcome_get client)]
  cases hentries : localEntries client.disk source with
  | error cause => exact h
  | ok entries =>
    apply onTree_sound h
    exact Tree.upload_wellFormed h.tree (ofString_canonical path)
      (canonical_of_localEntries h.disk hentries) client.disk.clock

theorem writeLocal_grows {disk : Disk} (h : disk.WellFormed) (target : String) (data : ByteArray) :
    disk.Grows ((writeLocal target data).outcome disk).2 := by
  unfold writeLocal
  apply Step.state_bind (P := disk.Grows)
  . exact Disk.createParents_grows h target
  . intro _ made _ hmade
    exact hmade.trans (Disk.writeFile_grows hmade.wellFormed target data)

theorem downloadEntry_grows {disk : Disk} (h : disk.WellFormed) (root : StorePath) (target : String)
    (transfer : Transfer) (entry : StorePath × Option ByteArray) :
    disk.Grows ((downloadEntry root target transfer entry).run disk).2 := by
  obtain ⟨path, data?⟩ := entry
  unfold downloadEntry
  cases data? with
  | some data =>
    dsimp only
    rw [Step.run_bind_pure, Step.run_run]
    dsimp only
    exact writeLocal_grows h (localTarget target root.text path.text) data
  | none =>
    dsimp only
    rw [Step.run_bind_pure, Step.run_run, Step.outcome_mapError]
    dsimp only
    exact Disk.createDirectories_grows h (localTarget target root.text path.text)

theorem download_sound (h : client.Sound account) (path target : String) :
    ((download path target).outcome client).2.Sound account := by
  unfold download
  rw [Step.outcome_bind_ok (Step.outcome_get client)]
  cases client.tree.snapshot? (ofString path) with
  | none => exact h
  | some entries =>
    refine ⟨h.account, h.tree, ?_⟩
    let P : Transfer → Disk → Prop := fun _ disk => disk.WellFormed
    have hloop : ∀ transfer disk, P transfer disk → ∀ entry ∈ entries,
        P ((downloadEntry (ofString path) target transfer entry).run disk).1
          ((downloadEntry (ofString path) target transfer entry).run disk).2 := by
      intro transfer disk hdisk entry _
      exact (downloadEntry_grows hdisk (ofString path) target transfer entry).wellFormed
    exact Step.run_foldlM_of_step hloop h.disk

theorem openReader_sound (h : client.Sound account) (path : String) :
    ((StoreClient.openReader path : ClientM MemoryClient _).outcome client).2.Sound account := by
  apply onTree_sound h
  rw [Step.state_bind_pure, Tree.read_outcome]
  split
  all_goals exact h.tree

theorem createFile_sound (h : client.Sound account) (path : String) (ifExists : IfExists) :
    ((StoreClient.createFile path ifExists : ClientM MemoryClient _).outcome client).2.Sound
      account := by
  change (((onTree fun now => Tree.putFile now (ofString path) ByteArray.empty ifExists) >>=
    fun _ => pure (Writer.mk (ofString path))).outcome client).2.Sound account
  rw [Step.state_bind_pure]
  apply onTree_sound h
  exact Tree.putFile_wellFormed h.tree (ofString_canonical path) client.disk.clock ByteArray.empty
    ifExists

theorem list_sound (h : client.Sound account) (path : String) :
    ((StoreClient.list path : ClientM MemoryClient _).outcome client).2.Sound account := by
  apply onTree_sound h
  rw [Tree.list_outcome]
  split
  all_goals exact h.tree

theorem write_sound (h : client.Sound account) (writer : Writer) (data : ByteArray) :
    ((StoreClient.write writer data : Step MemoryClient StreamError _).outcome client).2.Sound
      account := by
  change (((onTree fun now => Tree.append now writer.path data) >>= fun _ =>
    pure writer).outcome client).2.Sound account
  rw [Step.state_bind_pure]
  apply onTree_sound h
  exact Tree.append_wellFormed h.tree client.disk.clock writer.path data

theorem markPendingDelete_sound (h : client.Sound account) (path : String) :
    ((markPendingDelete path).outcome client).2.Sound account := by
  unfold markPendingDelete
  apply onTree_sound h
  exact Tree.markPendingDelete_wellFormed h.tree (ofString path)

theorem keptByCalls_sound (account : String) : Session.KeptByCalls (Sound account) := by
  constructor
  . intro path client h
    exact h
  . intro path client h
    exact openReader_sound h path
  . intro path ifExists client h
    exact createFile_sound h path ifExists
  . intro path client h
    exact onTree_sound h (Tree.delete_wellFormed h.tree (ofString path))
  . intro path client h
    apply onTree_sound h
    exact Tree.createDirectory_wellFormed h.tree (ofString_canonical path) client.disk.clock
  . intro path client h
    exact onTree_sound h (Tree.deleteRecursive_wellFormed h.tree (ofString path))
  . intro path client h
    exact h
  . intro path client h
    exact list_sound h path
  . intro source path client h
    exact upload_sound h source path
  . intro path target client h
    exact download_sound h path target
  . intro reader count? client h
    exact h
  . intro writer data client h
    exact write_sound h writer data

/-- What can happen to a store in memory: it is called, or others change the host it runs on. -/
inductive Event where
  | called (call : Call)
  | markedPendingDelete (path : String)
  | hostChanged (disk : Disk) (h : disk.WellFormed)

def Event.apply (session : Session MemoryClient) : Event → Session MemoryClient
  | .called call => session.step call
  | .markedPendingDelete path => session.after (markPendingDelete path)
  | .hostChanged disk _ => { session with client := { session.client with disk := disk } }

/-- The state of a store after some events, from when it was new. -/
def after (account : String) (disk : Disk) (events : List Event) : Session MemoryClient :=
  events.foldl Event.apply (.start (new account disk))

theorem Event.apply_sound {session : Session MemoryClient} (h : session.client.Sound account)
    (event : Event) :
    (event.apply session).client.Sound account := by
  cases event with
  | called call => exact (keptByCalls_sound account).step h call
  | markedPendingDelete path => exact markPendingDelete_sound h path
  | hostChanged disk hdisk => exact ⟨h.account, h.tree, hdisk⟩

theorem after_sound (account : String) {disk : Disk} (h : disk.WellFormed) (events : List Event) :
    (after account disk events).client.Sound account := by
  have hevents : ∀ session : Session MemoryClient, session.client.Sound account →
      (events.foldl Event.apply session).client.Sound account := by
    induction events with
    | nil => exact fun session hsession => hsession
    | cons event events ih =>
      intro session hsession
      rw [List.foldl_cons]
      apply ih
      exact Event.apply_sound hsession event
  unfold after
  apply hevents
  exact new_sound account h

end LakeStore.MemoryClient
