import LakeStore.Proofs.FileSystem.Operations
import LakeStore.Proofs.Memory.Client

/-!
Requests to a store in memory that are about one entry, as calls of the client and as operations of
the file system. A request that is refused leaves the store as it was: whatever is in the way, at
the path or at any directory above it, is found before the first change.
-/

namespace LakeStore

namespace Step

variable {σ τ ε δ α β : Type}

def Reads (step : Step σ ε α) : Prop :=
  ∀ state, (step.outcome state).2 = state

def Atomic (step : Step σ ε α) : Prop :=
  ∀ state error changed, step.outcome state = (.error error, changed) → changed = state

def AtomicUnlessTrue (step : Step σ ε Bool) : Prop :=
  ∀ state answer changed, step.outcome state = (answer, changed) → answer ≠ .ok true →
  changed = state

theorem Reads.atomic {step : Step σ ε α} (h : step.Reads) : step.Atomic := by
  intro state error changed houtcome
  have hstate := h state
  rw [houtcome] at hstate
  exact hstate

theorem Reads.mapError {step : Step σ ε α} (h : step.Reads) (describe : ε → δ) :
    (step.mapError describe).Reads := by
  intro state
  rw [outcome_mapError]
  exact h state

theorem Reads.bind {step : Step σ ε α} {next : α → Step σ ε β} (h : step.Reads)
    (hnext : ∀ value, (next value).Reads) : (step >>= next).Reads := by
  intro state
  apply state_bind (P := (· = state))
  . exact h state
  . intro value changed _ hchanged
    rw [hnext value changed]
    exact hchanged

theorem Atomic.mapError {step : Step σ ε α} (h : step.Atomic) (describe : ε → δ) :
    (step.mapError describe).Atomic := by
  intro state error changed houtcome
  rw [outcome_mapError] at houtcome
  cases hstep : step.outcome state with
  | mk result after =>
    rw [hstep] at houtcome
    cases result with
    | ok value => cases houtcome
    | error cause =>
      cases houtcome
      exact h state cause after hstep

theorem Atomic.onPart {part : σ → τ} {replace : σ → τ → σ} {step : Step τ ε α} (h : step.Atomic)
    (hpart : ∀ whole, replace whole (part whole) = whole) : (step.onPart part replace).Atomic := by
  intro whole error changed houtcome
  rw [outcome_onPart] at houtcome
  cases hstep : step.outcome (part whole) with
  | mk result after =>
    rw [hstep] at houtcome
    cases houtcome
    rw [h (part whole) error after hstep]
    exact hpart whole

theorem Reads.bind_atomic {step : Step σ ε α} {next : α → Step σ ε β} (h : step.Reads)
    (hnext : ∀ value, (next value).Atomic) : (step >>= next).Atomic := by
  intro state error changed houtcome
  have hstate := h state
  cases hstep : step.outcome state with
  | mk result after =>
    rw [hstep] at hstate
    subst hstate
    cases result with
    | ok value =>
      rw [outcome_bind_ok hstep] at houtcome
      exact hnext value after error changed houtcome
    | error cause =>
      rw [outcome_bind_error hstep] at houtcome
      cases houtcome
      rfl

theorem Atomic.bind_pure {step : Step σ ε α} (h : step.Atomic) (describe : α → β) :
    (step >>= fun value => pure (describe value)).Atomic := by
  intro state error changed houtcome
  rw [outcome_bind_pure] at houtcome
  cases hstep : step.outcome state with
  | mk result after =>
    rw [hstep] at houtcome
    cases result with
    | ok value => cases houtcome
    | error cause =>
      cases houtcome
      exact h state error after hstep

theorem AtomicUnlessTrue.mapError {step : Step σ ε Bool} (h : step.AtomicUnlessTrue)
    (describe : ε → δ) :
    (step.mapError describe).AtomicUnlessTrue := by
  intro state answer changed houtcome hanswer
  rw [outcome_mapError] at houtcome
  cases hstep : step.outcome state with
  | mk result after =>
    rw [hstep] at houtcome
    cases houtcome
    apply h state result after hstep
    rintro rfl
    exact hanswer rfl

theorem AtomicUnlessTrue.bind_unless {step : Step σ ε Bool} (h : step.AtomicUnlessTrue)
    (error : ε) :
    (step >>= fun done => unless done do throw error).Atomic := by
  intro state cause changed houtcome
  cases hstep : step.outcome state with
  | mk answer after =>
    cases answer with
    | ok done =>
      rw [outcome_bind_ok hstep] at houtcome
      cases done with
      | true => cases houtcome
      | false =>
        cases houtcome
        exact h state (.ok false) changed hstep (by simp)
    | error other =>
      rw [outcome_bind_error hstep] at houtcome
      cases houtcome
      exact h state (.error cause) changed hstep (by simp)

end Step

namespace Memory.Tree

theorem putFile_atomic (now : Time) (path : StorePath) (data : ByteArray) (ifExists : IfExists) :
    (putFile now path data ifExists).Atomic := by
  intro tree error changed houtcome
  rw [putFile_outcome] at houtcome
  split at houtcome
  . cases houtcome
    rfl
  . cases houtcome

theorem append_atomic (now : Time) (path : StorePath) (data : ByteArray) :
    (append now path data).Atomic := by
  intro tree error changed houtcome
  rw [append_outcome] at houtcome
  split at houtcome
  . cases houtcome
  . cases houtcome
    rfl

theorem read_reads (path : StorePath) : (read path).Reads := by
  intro tree
  rw [read_outcome]
  split
  all_goals rfl

theorem list_reads (path : StorePath) : (list path).Reads := by
  intro tree
  rw [list_outcome]
  split
  all_goals rfl

theorem delete_unchanged {path : StorePath} {tree : Tree} (h : ((delete path).run tree).1 = false) :
    ((delete path).run tree).2 = tree := by
  rw [delete_run] at h ⊢
  split
  . next hremovable =>
    rw [if_pos hremovable] at h
    cases h
  . rfl

theorem deleteRecursive_unchanged {path : StorePath} {tree : Tree}
    (h : ((deleteRecursive path).run tree).1 = false) :
    ((deleteRecursive path).run tree).2 = tree := by
  rw [deleteRecursive_run] at h ⊢
  split
  . next hremovable =>
    rw [if_pos hremovable] at h
    cases h
  . rfl

theorem createDirectory_unchanged {now : Time} {path : StorePath} {tree : Tree}
    (h : ((createDirectory now path).run tree).1 = false) :
    ((createDirectory now path).run tree).2 = tree := by
  rw [createDirectory_run] at h ⊢
  split
  . rfl
  . rfl
  . next hnone =>
    split
    . rfl
    . next hfile =>
      simp [hnone, hfile] at h

end Memory.Tree

/--
A request about one entry: a call of a client with a path, or an operation of the file system at an
address.
-/
inductive Request (σ : Type) [StoreClient σ] where
  | createFile (path : String) (ifExists : IfExists)
  | delete (path : String)
  | createDirectory (path : String)
  | deleteRecursive (path : String)
  | openReader (path : String)
  | list (path : String)
  | entryAt? (path : String)
  | write (writer : StoreClient.Writer σ) (data : ByteArray)
  | createAt (uri : RemoteUri)
  | deleteAt (uri : RemoteUri)
  | createDirectoryAt (uri : RemoteUri)
  | deleteDirectoryAt (uri : RemoteUri)
  | openAt (uri : RemoteUri)
  | childrenAt (uri : RemoteUri)
  | statusAt (uri? : Option RemoteUri)

namespace Request

variable {σ : Type} [StoreClient σ]

def run (client : σ) : Request σ → Bool × σ
  | createFile path ifExists => succeeded ((StoreClient.createFile path ifExists).outcome client)
  | delete path => answeredTrue ((StoreClient.delete path).outcome client)
  | createDirectory path => answeredTrue ((StoreClient.createDirectory path).outcome client)
  | deleteRecursive path => answeredTrue ((StoreClient.deleteRecursive path).outcome client)
  | openReader path => succeeded ((StoreClient.openReader path).outcome client)
  | list path => succeeded ((StoreClient.list path).outcome client)
  | entryAt? path => succeeded ((StoreClient.entryAt? path).outcome client)
  | write writer data => succeeded ((StoreClient.write writer data).outcome client)
  | createAt uri => succeeded ((FileSystem.create uri).outcome client)
  | deleteAt uri => succeeded ((FileSystem.delete uri).outcome client)
  | createDirectoryAt uri => succeeded ((FileSystem.createDirectory uri).outcome client)
  | deleteDirectoryAt uri => succeeded ((FileSystem.deleteDirectory uri).outcome client)
  | openAt uri => succeeded ((FileSystem.openFile uri).outcome client)
  | childrenAt uri => succeeded ((FileSystem.children uri).outcome client)
  | statusAt uri? => succeeded ((FileSystem.status uri?).outcome client)
where
  succeeded {ε α : Type} (outcome : Except ε α × σ) : Bool × σ :=
    (outcome.1.isOk, outcome.2)
  answeredTrue {ε : Type} (outcome : Except ε Bool × σ) : Bool × σ :=
    (outcome.1.toOption = some true, outcome.2)

omit [StoreClient σ] in
theorem unchanged_of_atomic {ε α : Type} {step : Step σ ε α} (h : step.Atomic) {client : σ}
    (hrefused : (run.succeeded (step.outcome client)).1 = false) :
    (run.succeeded (step.outcome client)).2 = client := by
  unfold run.succeeded at hrefused ⊢
  cases hstep : step.outcome client with
  | mk result after =>
    rw [hstep] at hrefused
    cases result with
    | ok value => cases hrefused
    | error error => exact h client error after hstep

omit [StoreClient σ] in
theorem unchanged_of_atomicUnlessTrue {ε : Type} {step : Step σ ε Bool} (h : step.AtomicUnlessTrue)
    {client : σ} (hrefused : (run.answeredTrue (step.outcome client)).1 = false) :
    (run.answeredTrue (step.outcome client)).2 = client := by
  unfold run.answeredTrue at hrefused ⊢
  cases hstep : step.outcome client with
  | mk answer after =>
    rw [hstep] at hrefused
    apply h client answer after hstep
    rintro rfl
    simp [Except.toOption] at hrefused

end Request

namespace MemoryClient

open Memory StorePath

theorem onTree_atomic {ε α : Type} {step : Time → Step Tree ε α} (h : ∀ now, (step now).Atomic) :
    (onTree step).Atomic := by
  intro client error changed houtcome
  have hpart : ((step client.disk.clock).onPart (·.tree)
      fun client tree => ({ client with tree := tree } : MemoryClient)).Atomic :=
    (h client.disk.clock).onPart fun _ => rfl
  exact hpart client error changed houtcome

theorem onTree_reads {ε α : Type} {step : Time → Step Tree ε α} (h : ∀ now, (step now).Reads) :
    (onTree step).Reads := by
  intro client
  rw [onTree_outcome, h client.disk.clock client.tree]

theorem onTree_atomicUnlessTrue {step : Time → StateM Tree Bool}
    (h : ∀ now tree, ((step now).run tree).1 = false → ((step now).run tree).2 = tree) :
    (onTree fun now => (liftM (step now) : Step Tree ClientError Bool)).AtomicUnlessTrue := by
  intro client answer changed houtcome hanswer
  rw [onTree_outcome, Step.outcome_liftM] at houtcome
  cases houtcome
  have hfalse : ((step client.disk.clock).run client.tree).1 = false := by simpa using hanswer
  dsimp only
  rw [h client.disk.clock client.tree hfalse]

theorem createFile_atomic (path : String) (ifExists : IfExists) :
    (StoreClient.createFile path ifExists : ClientM MemoryClient _).Atomic :=
  (onTree_atomic fun now =>
    Tree.putFile_atomic now (ofString path) ByteArray.empty ifExists).bind_pure
    fun _ => Writer.mk (ofString path)

theorem write_atomic (writer : Writer) (data : ByteArray) :
    (StoreClient.write writer data : Step MemoryClient StreamError _).Atomic :=
  (onTree_atomic fun now => Tree.append_atomic now writer.path data).bind_pure fun _ => writer

theorem delete_atomicUnlessTrue (path : String) :
    (StoreClient.delete path : ClientM MemoryClient Bool).AtomicUnlessTrue :=
  onTree_atomicUnlessTrue fun _ _ => Tree.delete_unchanged

theorem createDirectory_atomicUnlessTrue (path : String) :
    (StoreClient.createDirectory path : ClientM MemoryClient Bool).AtomicUnlessTrue :=
  onTree_atomicUnlessTrue fun _ _ => Tree.createDirectory_unchanged

theorem deleteRecursive_atomicUnlessTrue (path : String) :
    (StoreClient.deleteRecursive path : ClientM MemoryClient Bool).AtomicUnlessTrue :=
  onTree_atomicUnlessTrue fun _ _ => Tree.deleteRecursive_unchanged

theorem openReader_reads (path : String) :
    (StoreClient.openReader path : ClientM MemoryClient _).Reads := by
  apply onTree_reads
  intro now
  exact (Tree.read_reads (ofString path)).bind fun _ _ => rfl

theorem list_reads (path : String) : (StoreClient.list path : ClientM MemoryClient _).Reads :=
  onTree_reads fun _ => Tree.list_reads (ofString path)

theorem entryAt?_reads (path : String) :
    (StoreClient.entryAt? path : ClientM MemoryClient _).Reads :=
  fun _ => rfl

theorem requireDirectory_reads (op : String) (uri : RemoteUri) :
    (FileSystem.requireDirectory op uri : FsM MemoryClient Unit).Reads := by
  unfold FileSystem.requireDirectory FileSystem.probe
  have hentry := (entryAt?_reads uri.path).mapError FsError.client
  apply (hentry.bind fun found? _ => rfl).bind
  intro probe client
  split
  all_goals rfl

/-- A request that is refused leaves the store as it was, with all contents and times. -/
theorem refused_request_unchanged (client : MemoryClient) (request : Request MemoryClient)
    (hrefused : (request.run client).1 = false) : (request.run client).2 = client := by
  cases request with
  | createFile path ifExists =>
    exact Request.unchanged_of_atomic (createFile_atomic path ifExists) hrefused
  | delete path =>
    exact Request.unchanged_of_atomicUnlessTrue (delete_atomicUnlessTrue path) hrefused
  | createDirectory path =>
    exact Request.unchanged_of_atomicUnlessTrue (createDirectory_atomicUnlessTrue path) hrefused
  | deleteRecursive path =>
    exact Request.unchanged_of_atomicUnlessTrue (deleteRecursive_atomicUnlessTrue path) hrefused
  | openReader path => exact Request.unchanged_of_atomic (openReader_reads path).atomic hrefused
  | list path => exact Request.unchanged_of_atomic (list_reads path).atomic hrefused
  | entryAt? path => exact Request.unchanged_of_atomic (entryAt?_reads path).atomic hrefused
  | write writer data => exact Request.unchanged_of_atomic (write_atomic writer data) hrefused
  | createAt uri =>
    have hcall := (createFile_atomic uri.path .overwrite).mapError FsError.client
    exact Request.unchanged_of_atomic hcall hrefused
  | deleteAt uri =>
    have hcall := (delete_atomicUnlessTrue uri.path).mapError FsError.client
    exact Request.unchanged_of_atomic (hcall.bind_unless _) hrefused
  | createDirectoryAt uri =>
    have hcall := (createDirectory_atomicUnlessTrue uri.path).mapError FsError.client
    exact Request.unchanged_of_atomic (hcall.bind_unless _) hrefused
  | deleteDirectoryAt uri =>
    have hcall := (deleteRecursive_atomicUnlessTrue uri.path).mapError FsError.client
    have hrequire := requireDirectory_reads "delete_directory" uri
    exact Request.unchanged_of_atomic (hrequire.bind_atomic fun _ => hcall.bind_unless _) hrefused
  | openAt uri =>
    have hcall := (openReader_reads uri.path).mapError FsError.client
    exact Request.unchanged_of_atomic hcall.atomic hrefused
  | childrenAt uri =>
    have hrequire := requireDirectory_reads "get_children" uri
    have hlist := (list_reads uri.path).mapError FsError.client
    apply Request.unchanged_of_atomic (Step.Reads.atomic _) hrefused
    exact hrequire.bind fun _ => hlist.bind fun _ _ => rfl
  | statusAt uri? =>
    apply Request.unchanged_of_atomic (Step.Reads.atomic _) hrefused
    cases uri? with
    | none => exact fun _ => rfl
    | some uri =>
      apply ((entryAt?_reads uri.path).mapError FsError.client).bind
      intro found? client
      cases found? with
      | none => rfl
      | some entry =>
        dsimp only
        cases entry.modified <;> rfl

theorem refused_request_unchanged_file_on_the_way :
    let client := (after "acct" (.empty default) [.called (.createFile "a/b" .fail)]).client
    (Request.run client (.createAt (.ofPath "acct" "a/b/c/d"))).1 = false ∧
      (Request.run client (.createAt (.ofPath "acct" "a/b/c/d"))).2 = client := by
  intro client
  have hrefused : (Request.run client (.createAt (.ofPath "acct" "a/b/c/d"))).1 = false := by decide
  exact ⟨hrefused, refused_request_unchanged client _ hrefused⟩

end MemoryClient

end LakeStore
