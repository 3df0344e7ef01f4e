import LakeStore.FileSystem

/-!
Each operation of the file system answers by what the calls answer that it makes of the client.
-/

namespace LakeStore.FileSystem

variable {σ : Type}

theorem call_outcome {α : Type} (step : ClientM σ α) (client : σ) :
    (call step).outcome client =
      ((step.outcome client).1.mapError .client, (step.outcome client).2) := rfl

theorem call_of_ok {α : Type} {step : ClientM σ α} {client changed : σ} {value : α}
    (h : step.outcome client = (.ok value, changed)) :
    (call step).outcome client = (.ok value, changed) := by
  rw [call_outcome, h]
  rfl

theorem call_of_error {α : Type} {step : ClientM σ α} {client changed : σ} {error : ClientError}
    (h : step.outcome client = (.error error, changed)) :
    (call step).outcome client = (.error (.client error), changed) := by
  rw [call_outcome, h]
  rfl

theorem call_eq_ok {α : Type} {step : ClientM σ α} {client changed : σ} {value : α}
    (h : (call step).outcome client = (.ok value, changed)) :
    step.outcome client = (.ok value, changed) := by
  rcases hstep : step.outcome client with ⟨error | found, after⟩
  . rw [call_of_error hstep] at h
    cases h
  . rw [call_of_ok hstep] at h
    cases h
    rfl

variable [StoreClient σ] {client changed : σ} {uri : RemoteUri} {found? : Option Entry}

theorem delete_of_ok {deleted : Bool}
    (h : (StoreClient.delete uri.path).outcome client = (.ok deleted, changed)) :
    (delete uri).outcome client =
      (if deleted then .ok () else .error (.storeIo "delete" uri.text Refusal.notDeleted.message),
        changed) := by
  unfold FileSystem.delete
  rw [Step.outcome_bind_ok (call_of_ok h)]
  cases deleted <;> rfl

theorem createDirectory_of_ok {made : Bool}
    (h : (StoreClient.createDirectory uri.path).outcome client = (.ok made, changed)) :
    (createDirectory uri).outcome client =
      (if made then .ok ()
        else .error (.storeIo "create_directory" uri.text Refusal.directoryNotCreated.message),
        changed) := by
  unfold FileSystem.createDirectory
  rw [Step.outcome_bind_ok (call_of_ok h)]
  cases made <;> rfl

theorem createDirectory_eq_ok (h : (createDirectory uri).outcome client = (.ok (), changed)) :
    (StoreClient.createDirectory uri.path).outcome client = (.ok true, changed) := by
  rcases hmade : (StoreClient.createDirectory uri.path).outcome client with ⟨error | made, after⟩
  . unfold FileSystem.createDirectory at h
    rw [Step.outcome_bind_error (call_of_error hmade)] at h
    cases h
  . rw [createDirectory_of_ok hmade] at h
    cases made with
    | false => cases h
    | true =>
      cases h
      rfl

def notDirectory (found? : Option Entry) : Refusal :=
  if (Probe.ofEntry found?).found then .notDirectory else .noDirectory

section requireDirectory

variable (hentry : (StoreClient.entryAt? uri.path).outcome client = (.ok found?, client))

include hentry

theorem requireDirectory_of_ok (op : String) :
    (requireDirectory op uri).outcome client =
      (if (Probe.ofEntry found?).isDirectory then .ok ()
        else .error (.storeIo op uri.text (notDirectory found?).message), client) := by
  have hprobe : (probe uri).outcome client = (.ok (.ofEntry found?), client) := by
    unfold probe
    rw [Step.outcome_bind_ok (call_of_ok hentry)]
    rfl
  unfold requireDirectory
  rw [Step.outcome_bind_ok hprobe]
  split
  all_goals rfl

theorem deleteDirectory_of_directory (hdirectory : (Probe.ofEntry found?).isDirectory = true)
    {deleted : Bool}
    (h : (StoreClient.deleteRecursive uri.path).outcome client = (.ok deleted, changed)) :
    (deleteDirectory uri).outcome client =
      (if deleted then .ok ()
        else .error (.storeIo "delete_directory" uri.text Refusal.directoryNotDeleted.message),
        changed) := by
  have hrequire := requireDirectory_of_ok hentry "delete_directory"
  rw [if_pos hdirectory] at hrequire
  unfold FileSystem.deleteDirectory
  rw [Step.outcome_bind_ok hrequire, Step.outcome_bind_ok (call_of_ok h)]
  cases deleted <;> rfl

theorem deleteDirectory_of_not_directory (hdirectory : (Probe.ofEntry found?).isDirectory = false) :
    (deleteDirectory uri).outcome client =
      (.error (.storeIo "delete_directory" uri.text (notDirectory found?).message), client) := by
  have hrequire := requireDirectory_of_ok hentry "delete_directory"
  rw [if_neg (by simp [hdirectory])] at hrequire
  unfold FileSystem.deleteDirectory
  rw [Step.outcome_bind_error hrequire]

theorem children_of_directory (hdirectory : (Probe.ofEntry found?).isDirectory = true)
    {entries : List Entry}
    (h : (StoreClient.list uri.path).outcome client = (.ok entries, client)) :
    (children uri).outcome client = (.ok ⟨StoreClient.account client, entries⟩, client) := by
  have hrequire := requireDirectory_of_ok hentry "get_children"
  rw [if_pos hdirectory] at hrequire
  unfold FileSystem.children
  rw [Step.outcome_bind_ok hrequire, Step.outcome_bind_ok (call_of_ok h)]
  rfl

theorem children_of_not_directory (hdirectory : (Probe.ofEntry found?).isDirectory = false) :
    (children uri).outcome client =
      (.error (.storeIo "get_children" uri.text (notDirectory found?).message), client) := by
  have hrequire := requireDirectory_of_ok hentry "get_children"
  rw [if_neg (by simp [hdirectory])] at hrequire
  unfold FileSystem.children
  rw [Step.outcome_bind_error hrequire]

def statusOf : Option Entry → Except Refusal FileStatus
  | none => .error .noEntry
  | some entry =>
    match entry.modified with
    | none => .error .staleEntry
    | some modified => .ok ⟨modified, entry.length⟩

theorem status_of_ok :
    (status (some uri)).outcome client =
      ((statusOf found?).mapError fun refusal =>
        .storeIo "get_file_status" uri.text refusal.message, client) := by
  unfold FileSystem.status
  dsimp only
  rw [Step.outcome_bind_ok (call_of_ok hentry)]
  unfold statusOf
  cases found? with
  | none => rfl
  | some entry =>
    dsimp only
    cases entry.modified <;> rfl

end requireDirectory

theorem requireDirectory_of_error {error : ClientError} (op : String)
    (h : (StoreClient.entryAt? uri.path).outcome client = (.error error, changed)) :
    (requireDirectory op uri).outcome client = (.error (.client error), changed) := by
  have hprobe : (probe uri).outcome client = (.error (.client error), changed) := by
    unfold probe
    rw [Step.outcome_bind_error (call_of_error h)]
  unfold requireDirectory
  rw [Step.outcome_bind_error hprobe]

end LakeStore.FileSystem
