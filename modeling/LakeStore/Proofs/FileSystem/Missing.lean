import LakeStore.Proofs.FileSystem.Operations

/-!
The operations of the file system answer in two ways about an entry that is missing: they tell that
it is missing, when the calls of the client tell so, and they fail with the error of the client,
when the calls fail.
-/

namespace LakeStore.FileSystem

variable {σ : Type} [StoreClient σ]

/-- The operations tell that an entry is missing, and leave the client as it was. -/
structure ToldMissing (client : σ) (uri : RemoteUri) : Prop where
  exists? : (exists? uri).outcome client = (.ok false, client)
  delete : (delete uri).outcome client =
    (.error (.storeIo "delete" uri.text Refusal.notDeleted.message), client)
  deleteDirectory : (deleteDirectory uri).outcome client =
    (.error (.storeIo "delete_directory" uri.text Refusal.noDirectory.message), client)
  children : (children uri).outcome client =
    (.error (.storeIo "get_children" uri.text Refusal.noDirectory.message), client)
  status : (status (some uri)).outcome client =
    (.error (.storeIo "get_file_status" uri.text Refusal.noEntry.message), client)

/-- The operations fail with one error of the client, and leave the client as it was. -/
structure FailedBy (client : σ) (uri : RemoteUri) (error : ClientError) : Prop where
  exists? : (exists? uri).outcome client = (.error (.client error), client)
  delete : (delete uri).outcome client = (.error (.client error), client)
  deleteDirectory : (deleteDirectory uri).outcome client = (.error (.client error), client)
  children : (children uri).outcome client = (.error (.client error), client)
  status : (status (some uri)).outcome client = (.error (.client error), client)

variable {client : σ} {uri : RemoteUri}

theorem toldMissing_of_calls
    (hexists : (StoreClient.exists? uri.path).outcome client = (.ok false, client))
    (hdelete : (StoreClient.delete uri.path).outcome client = (.ok false, client))
    (hentry : (StoreClient.entryAt? uri.path).outcome client = (.ok none, client)) :
    ToldMissing client uri := by
  refine ⟨?_, ?_, ?_, ?_, ?_⟩
  . exact call_of_ok hexists
  . rw [delete_of_ok hdelete]
    rfl
  . rw [deleteDirectory_of_not_directory hentry rfl]
    rfl
  . rw [children_of_not_directory hentry rfl]
    rfl
  . rw [status_of_ok hentry]
    rfl

theorem failedBy_of_calls {error : ClientError}
    (hexists : (StoreClient.exists? uri.path).outcome client = (.error error, client))
    (hdelete : (StoreClient.delete uri.path).outcome client = (.error error, client))
    (hentry : (StoreClient.entryAt? uri.path).outcome client = (.error error, client)) :
    FailedBy client uri error := by
  refine ⟨?_, ?_, ?_, ?_, ?_⟩
  . exact call_of_error hexists
  . unfold FileSystem.delete
    rw [Step.outcome_bind_error (call_of_error hdelete)]
  . unfold FileSystem.deleteDirectory
    rw [Step.outcome_bind_error (requireDirectory_of_error "delete_directory" hentry)]
  . unfold FileSystem.children
    rw [Step.outcome_bind_error (requireDirectory_of_error "get_children" hentry)]
  . unfold FileSystem.status
    dsimp only
    rw [Step.outcome_bind_error (call_of_error hentry)]

theorem FailedBy.not_toldMissing {error : ClientError} (h : FailedBy client uri error) :
    ¬ ToldMissing client uri := by
  intro htold
  have hexists := h.exists?
  rw [htold.exists?] at hexists
  cases hexists

end LakeStore.FileSystem
