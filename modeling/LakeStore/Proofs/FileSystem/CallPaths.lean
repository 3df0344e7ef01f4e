import LakeStore.Command.Run
import LakeStore.Proofs.FileSystem.Recorded

/-!
The calls that a command makes of the client. Once the address is known, every call is made at its
path.
-/

namespace LakeStore

def ClientCall.path : ClientCall → String
  | exists? path | openReader path | createFile path _ | delete path | createDirectory path => path
  | deleteRecursive path | entryAt? path | list path | upload _ path | download path _ => path

section

variable {σ ε α : Type} [StoreClient σ] {path : String}

/--
Whether a program makes all its calls at one path. It is told from the same program over a client
that keeps a record of the calls.
-/
def CallsAt (path : String) (plain : Step σ ε α) (recorded : Step (Recorded σ) ε α) : Prop :=
  ∀ client trace, ∃ calls, recorded.outcome ⟨client, trace⟩ =
      ((plain.outcome client).1, ⟨(plain.outcome client).2, trace ++ calls⟩) ∧
    ∀ exchange ∈ calls, exchange.call.path = path

namespace CallsAt

theorem of_no_call {plain : Step σ ε α} {recorded : Step (Recorded σ) ε α}
    (h : ∀ client trace, recorded.outcome ⟨client, trace⟩ =
      ((plain.outcome client).1, ⟨(plain.outcome client).2, trace⟩)) :
    CallsAt path plain recorded := by
  intro client trace
  refine ⟨[], ?_, by simp⟩
  rw [h, List.append_nil]

theorem bind {β : Type} {plain : Step σ ε α} {recorded : Step (Recorded σ) ε α}
    {next : α → Step σ ε β} {next' : α → Step (Recorded σ) ε β}
    (h : CallsAt path plain recorded) (hnext : ∀ value, CallsAt path (next value) (next' value)) :
    CallsAt path (plain >>= next) (recorded >>= next') := by
  intro client trace
  obtain ⟨calls, hrecorded, hcalls⟩ := h client trace
  rcases hplain : plain.outcome client with ⟨error | value, changed⟩
  . rw [hplain] at hrecorded
    refine ⟨calls, ?_, hcalls⟩
    rw [Step.outcome_bind_error hrecorded, Step.outcome_bind_error hplain]
  . rw [hplain] at hrecorded
    obtain ⟨others, hothers, hpaths⟩ := hnext value changed (trace ++ calls)
    refine ⟨calls ++ others, ?_, ?_⟩
    . rw [Step.outcome_bind_ok hrecorded, Step.outcome_bind_ok hplain, hothers, List.append_assoc]
    . exact List.forall_mem_append.mpr ⟨hcalls, hpaths⟩

theorem mapError {δ : Type} {plain : Step σ ε α} {recorded : Step (Recorded σ) ε α}
    (describe : ε → δ) (h : CallsAt path plain recorded) :
    CallsAt path (plain.mapError describe) (recorded.mapError describe) := by
  intro client trace
  obtain ⟨calls, hrecorded, hcalls⟩ := h client trace
  refine ⟨calls, ?_, hcalls⟩
  rw [Step.outcome_mapError, Step.outcome_mapError, hrecorded]

theorem call (call : ClientCall) :
    CallsAt call.path (FileSystem.call (call.make : ClientM σ _))
      (FileSystem.call (Recorded.record call)) := by
  intro client trace
  refine ⟨[⟨call, (call.make.outcome client).1⟩], rfl, ?_⟩
  intro exchange hexchange
  rw [List.mem_singleton.mp hexchange]

end CallsAt

end

namespace FileSystem

variable {σ : Type} [StoreClient σ] (uri : RemoteUri)

theorem callsAt_requireDirectory (op : String) :
    CallsAt uri.path (requireDirectory op uri : FsM σ Unit) (requireDirectory op uri) := by
  have hprobe : CallsAt uri.path (probe uri : FsM σ Probe) (probe uri) :=
    .bind (.call (.entryAt? uri.path)) fun _ => .of_no_call fun _ _ => rfl
  apply hprobe.bind
  intro probe
  cases probe.isDirectory
  all_goals exact .of_no_call fun _ _ => rfl

theorem callsAt_unless (op : String) (refusal : Refusal) (accepted : Bool) :
    CallsAt uri.path (unless accepted do refuse op uri refusal : FsM σ Unit)
      (unless accepted do refuse op uri refusal) := by
  cases accepted
  all_goals exact .of_no_call fun _ _ => rfl

theorem callsAt_delete : CallsAt uri.path (delete uri : FsM σ Unit) (delete uri) :=
  .bind (.call (.delete uri.path)) (callsAt_unless uri "delete" .notDeleted)

theorem callsAt_createDirectory :
    CallsAt uri.path (createDirectory uri : FsM σ Unit) (createDirectory uri) :=
  .bind (.call (.createDirectory uri.path))
    (callsAt_unless uri "create_directory" .directoryNotCreated)

theorem callsAt_deleteDirectory :
    CallsAt uri.path (deleteDirectory uri : FsM σ Unit) (deleteDirectory uri) := by
  apply (callsAt_requireDirectory uri "delete_directory").bind
  intro _
  apply CallsAt.bind (.call (.deleteRecursive uri.path))
  exact callsAt_unless uri "delete_directory" .directoryNotDeleted

theorem callsAt_children : CallsAt uri.path (children uri : FsM σ Children) (children uri) := by
  apply (callsAt_requireDirectory uri "get_children").bind
  intro _
  apply CallsAt.bind (.call (.list uri.path))
  exact fun _ => .of_no_call fun _ _ => rfl

theorem callsAt_checkTransfer (op : String) (transfer : Transfer) :
    CallsAt uri.path (checkTransfer op uri transfer : FsM σ Unit)
      (checkTransfer op uri transfer) :=
  callsAt_unless uri op (.incompleteTransfer transfer.failed.length) transfer.isComplete

theorem callsAt_copyToLocal (target : String) :
    CallsAt uri.path (copyToLocal uri target : FsM σ Unit) (copyToLocal uri target) :=
  .bind (.call (.download uri.path target)) (callsAt_checkTransfer uri "copy_to_local")

theorem callsAt_copyFromLocal (source : String) :
    CallsAt uri.path (copyFromLocal source uri : FsM σ Unit) (copyFromLocal source uri) :=
  .bind (.call (.upload source uri.path)) (callsAt_checkTransfer uri "copy_from_local")

theorem callsAt_status :
    CallsAt uri.path (status (some uri) : FsM σ FileStatus) (status (some uri)) := by
  apply CallsAt.bind (.call (.entryAt? uri.path))
  intro found?
  cases found? with
  | none => exact .of_no_call fun _ _ => rfl
  | some entry =>
    dsimp only
    cases entry.modified
    all_goals exact .of_no_call fun _ _ => rfl

end FileSystem

namespace Command

open FileSystem

variable {σ : Type} [StoreClient σ] {path : String}

theorem callsAt_writeAll (path : String) (writer : StoreClient.Writer σ) (data : ByteArray) :
    CallsAt path (StoreClient.writeAll writer data : Step σ StreamError _)
      (StoreClient.writeAll (σ := Recorded σ) writer data) := by
  unfold StoreClient.writeAll
  cases data.isEmpty
  all_goals exact .of_no_call fun _ _ => rfl

theorem callsAt_printing {step : FsM σ String} {recorded : FsM (Recorded σ) String}
    (h : CallsAt path step recorded) : CallsAt path (printing step) (printing recorded) :=
  .bind (h.mapError CommandError.fileSystem) fun _ => .of_no_call fun _ _ => rfl

theorem callsAt_silent {step : FsM σ Unit} {recorded : FsM (Recorded σ) Unit}
    (h : CallsAt path step recorded) : CallsAt path (silent step) (silent recorded) := by
  apply callsAt_printing
  exact h.bind fun _ => .of_no_call fun _ _ => rfl

theorem callsAt_runAt (address : RemoteUri) (command : Command) :
    CallsAt address.path (command.runAt address : Step σ CommandError ByteArray)
      (command.runAt address) := by
  cases command with
  | exists? path =>
    apply callsAt_printing
    exact .bind (.call (.exists? address.path)) fun _ => .of_no_call fun _ _ => rfl
  | stat path =>
    apply callsAt_printing
    exact (callsAt_status address).bind fun _ => .of_no_call fun _ _ => rfl
  | ls path =>
    apply callsAt_printing
    exact (callsAt_children address).bind fun _ => .of_no_call fun _ _ => rfl
  | mkdir path => exact callsAt_silent (callsAt_createDirectory address)
  | rm path => exact callsAt_silent (callsAt_delete address)
  | rmdir path => exact callsAt_silent (callsAt_deleteDirectory address)
  | put source remote => exact callsAt_silent (callsAt_copyFromLocal address source)
  | get remote target => exact callsAt_silent (callsAt_copyToLocal address target)
  | cat path =>
    have hopen := CallsAt.call (σ := σ) (.openReader address.path)
    apply (hopen.mapError CommandError.fileSystem).bind
    exact fun reader => .of_no_call fun _ _ => rfl
  | write remote text =>
    have hcreate := CallsAt.call (σ := σ) (.createFile address.path .overwrite)
    apply (hcreate.mapError CommandError.fileSystem).bind
    intro writer
    have hwrite := (callsAt_writeAll address.path writer text.toUTF8).mapError CommandError.stream
    apply (hwrite.bind fun _ => .of_no_call fun _ _ => rfl).bind
    exact fun _ => .of_no_call fun _ _ => rfl
  | uri path => exact .of_no_call fun _ _ => rfl

/-- Whether a command works at an address, and makes no call at another path. -/
structure ActsAt (command : Command) (client : σ) (address : RemoteUri) : Prop where
  run : (command.run : Step σ CommandError ByteArray).outcome client =
    (command.runAt address).outcome client
  calls : ∀ trace, ∃ calls,
    (command.run : Step (Recorded σ) CommandError ByteArray).outcome ⟨client, trace⟩ =
      ((command.run.outcome client).1, ⟨(command.run.outcome client).2, trace ++ calls⟩) ∧
    ∀ exchange ∈ calls, exchange.call.path = address.path

theorem run_of_address {command : Command} {client : σ} {address : RemoteUri}
    (h : (command.address : FsM σ RemoteUri).outcome client = (.ok address, client)) :
    (command.run : Step σ CommandError ByteArray).outcome client =
      (command.runAt address).outcome client := by
  unfold run
  rw [Step.outcome_bind_ok (Step.outcome_mapError_ok h)]

theorem actsAt_of_address {command : Command} {client : σ} {address : RemoteUri}
    (h : (command.address : FsM σ RemoteUri).outcome client = (.ok address, client))
    (hrecorded : ∀ recorded : Recorded σ, recorded.client = client →
      (command.address : FsM (Recorded σ) RemoteUri).outcome recorded = (.ok address, recorded)) :
    command.ActsAt client address := by
  refine ⟨run_of_address h, ?_⟩
  intro trace
  rw [run_of_address h, run_of_address (hrecorded ⟨client, trace⟩ rfl)]
  exact callsAt_runAt address command client trace

end Command

end LakeStore
