import LakeStore.Proofs.Contents
import LakeStore.Proofs.FileSystem.Operations
import Mathlib.Data.Set.Basic

/-!
This module contains the file system apart from any client: what each operation answers, and what it
makes of the contents of the store. A client implements the file system when its answers are these
ones, and its contents change in this way.
-/

namespace LakeStore

open StorePath

inductive Operation where
  | create (uri : RemoteUri) (data : ByteArray)
  | delete (uri : RemoteUri)
  | createDirectory (uri : RemoteUri)
  | deleteDirectory (uri : RemoteUri)
  | read (uri : RemoteUri)
  | exists? (uri : RemoteUri)
  | children (uri : RemoteUri)
  | status (uri : RemoteUri)

inductive Answer where
  | done
  | bytes (data : ByteArray)
  | found (found : Bool)
  | addresses (uris : Set RemoteUri)
  | length (length : Nat)

namespace Operation

def uri : Operation → RemoteUri
  | create uri _ | delete uri | createDirectory uri | deleteDirectory uri | read uri | exists? uri
  | children uri | status uri => uri

def path (operation : Operation) : StorePath :=
  ofString operation.uri.path

section run

variable {σ : Type} [StoreClient σ]

def told {ε α : Type} (outcome : Except ε α × σ) (answer : α → Answer) : Option Answer × σ :=
  (outcome.1.toOption.map answer, outcome.2)

def run (client : σ) : Operation → Option Answer × σ
  | create uri data =>
    match (FileSystem.create uri).outcome client with
    | (.ok writer, opened) =>
      told ((StoreClient.writeAll writer data).outcome opened) fun _ => .done
    | (.error _, failed) => (none, failed)
  | delete uri => told ((FileSystem.delete uri).outcome client) fun _ => .done
  | createDirectory uri => told ((FileSystem.createDirectory uri).outcome client) fun _ => .done
  | deleteDirectory uri => told ((FileSystem.deleteDirectory uri).outcome client) fun _ => .done
  | read uri =>
    match (FileSystem.openFile uri).outcome client with
    | (.ok reader, opened) =>
      let (data, closed) := (StoreClient.readAll reader).run opened
      (some (.bytes data), closed)
    | (.error _, failed) => (none, failed)
  | exists? uri => told ((FileSystem.exists? uri).outcome client) .found
  | children uri =>
    told ((FileSystem.children uri).outcome client) fun children =>
      .addresses {uri | uri ∈ children.all}
  | status uri =>
    told ((FileSystem.status (some uri)).outcome client) fun status => .length status.length

variable {client changed after : σ} {uri : RemoteUri} {error : ClientError} {found? : Option Entry}

theorem run_create_of_ok {writer last : StoreClient.Writer σ} {data : ByteArray}
    (hcreate : (StoreClient.createFile uri.path .overwrite).outcome client = (.ok writer, changed))
    (hwrite : (StoreClient.writeAll writer data).outcome changed = (.ok last, after)) :
    (create uri data).run client = (some .done, after) := by
  unfold run FileSystem.create
  dsimp only
  rw [FileSystem.call_of_ok hcreate]
  dsimp only
  rw [hwrite]
  rfl

theorem run_create_of_error {data : ByteArray}
    (h : (StoreClient.createFile uri.path .overwrite).outcome client = (.error error, changed)) :
    (create uri data).run client = (none, changed) := by
  unfold run FileSystem.create
  dsimp only
  rw [FileSystem.call_of_error h]

theorem run_delete_of_ok {deleted : Bool}
    (h : (StoreClient.delete uri.path).outcome client = (.ok deleted, changed)) :
    (delete uri).run client = (if deleted then some .done else none, changed) := by
  unfold run
  dsimp only
  rw [FileSystem.delete_of_ok h]
  cases deleted <;> rfl

theorem run_delete_of_error
    (h : (StoreClient.delete uri.path).outcome client = (.error error, changed)) :
    (delete uri).run client = (none, changed) := by
  unfold run FileSystem.delete
  dsimp only
  rw [Step.outcome_bind_error (FileSystem.call_of_error h)]
  rfl

theorem run_createDirectory_of_ok {made : Bool}
    (h : (StoreClient.createDirectory uri.path).outcome client = (.ok made, changed)) :
    (createDirectory uri).run client = (if made then some .done else none, changed) := by
  unfold run
  dsimp only
  rw [FileSystem.createDirectory_of_ok h]
  cases made <;> rfl

theorem run_deleteDirectory_of_directory
    (hentry : (StoreClient.entryAt? uri.path).outcome client = (.ok found?, client))
    (hdirectory : (Probe.ofEntry found?).isDirectory = true) {deleted : Bool}
    (h : (StoreClient.deleteRecursive uri.path).outcome client = (.ok deleted, changed)) :
    (deleteDirectory uri).run client = (if deleted then some .done else none, changed) := by
  unfold run
  dsimp only
  rw [FileSystem.deleteDirectory_of_directory hentry hdirectory h]
  cases deleted <;> rfl

theorem run_deleteDirectory_of_not_directory
    (hentry : (StoreClient.entryAt? uri.path).outcome client = (.ok found?, client))
    (hdirectory : (Probe.ofEntry found?).isDirectory = false) :
    (deleteDirectory uri).run client = (none, client) := by
  unfold run
  dsimp only
  rw [FileSystem.deleteDirectory_of_not_directory hentry hdirectory]
  rfl

theorem run_deleteDirectory_of_error
    (h : (StoreClient.entryAt? uri.path).outcome client = (.error error, changed)) :
    (deleteDirectory uri).run client = (none, changed) := by
  unfold run FileSystem.deleteDirectory
  dsimp only
  rw [Step.outcome_bind_error (FileSystem.requireDirectory_of_error "delete_directory" h)]
  rfl

theorem run_read_of_ok {reader last : StoreClient.Reader σ} {data : ByteArray}
    (hopen : (StoreClient.openReader uri.path).outcome client = (.ok reader, changed))
    (hread : (StoreClient.read reader none).run changed = ((data, last), after)) :
    (read uri).run client = (some (.bytes data), after) := by
  have hreadAll : (StoreClient.readAll reader).run changed = (data, after) := by
    unfold StoreClient.readAll
    rw [Step.run_bind_pure, hread]
  unfold run FileSystem.openFile
  dsimp only
  rw [FileSystem.call_of_ok hopen]
  dsimp only
  rw [hreadAll]

theorem run_read_of_error
    (h : (StoreClient.openReader uri.path).outcome client = (.error error, changed)) :
    (read uri).run client = (none, changed) := by
  unfold run FileSystem.openFile
  dsimp only
  rw [FileSystem.call_of_error h]

theorem run_exists?_of_ok {found : Bool}
    (h : (StoreClient.exists? uri.path).outcome client = (.ok found, changed)) :
    (exists? uri).run client = (some (.found found), changed) := by
  unfold run FileSystem.exists?
  dsimp only
  rw [FileSystem.call_of_ok h]
  rfl

theorem run_exists?_of_error
    (h : (StoreClient.exists? uri.path).outcome client = (.error error, changed)) :
    (exists? uri).run client = (none, changed) := by
  unfold run FileSystem.exists?
  dsimp only
  rw [FileSystem.call_of_error h]
  rfl

theorem run_children_of_directory
    (hentry : (StoreClient.entryAt? uri.path).outcome client = (.ok found?, client))
    (hdirectory : (Probe.ofEntry found?).isDirectory = true) {entries : List Entry}
    (h : (StoreClient.list uri.path).outcome client = (.ok entries, client)) :
    (children uri).run client =
      (some (.addresses {uri | uri ∈ (Children.mk (StoreClient.account client) entries).all}),
        client) := by
  unfold run
  dsimp only
  rw [FileSystem.children_of_directory hentry hdirectory h]
  rfl

theorem run_children_of_not_directory
    (hentry : (StoreClient.entryAt? uri.path).outcome client = (.ok found?, client))
    (hdirectory : (Probe.ofEntry found?).isDirectory = false) :
    (children uri).run client = (none, client) := by
  unfold run
  dsimp only
  rw [FileSystem.children_of_not_directory hentry hdirectory]
  rfl

theorem run_children_of_error
    (h : (StoreClient.entryAt? uri.path).outcome client = (.error error, changed)) :
    (children uri).run client = (none, changed) := by
  unfold run FileSystem.children
  dsimp only
  rw [Step.outcome_bind_error (FileSystem.requireDirectory_of_error "get_children" h)]
  rfl

theorem run_status_of_ok
    (hentry : (StoreClient.entryAt? uri.path).outcome client = (.ok found?, client)) :
    (status uri).run client =
      ((FileSystem.statusOf found?).toOption.map fun status => .length status.length, client) := by
  unfold run
  dsimp only
  rw [FileSystem.status_of_ok hentry]
  cases FileSystem.statusOf found? <;> rfl

theorem run_status_of_error
    (h : (StoreClient.entryAt? uri.path).outcome client = (.error error, changed)) :
    (status uri).run client = (none, changed) := by
  unfold run FileSystem.status
  dsimp only
  rw [Step.outcome_bind_error (FileSystem.call_of_error h)]
  rfl

end run

open Classical in
noncomputable def perform (account : String) (contents : Contents) (operation : Operation) :
    Option Answer × Contents :=
  let path := operation.path
  match operation with
  | create _ data =>
    if contents.CanPut path then (some .done, contents.put path data) else (none, contents)
  | delete _ =>
    if contents.CanDelete path then (some .done, contents.without path) else (none, contents)
  | createDirectory _ =>
    if contents.CanPutDirectory path then (some .done, contents.putDirectory path)
    else (none, contents)
  | deleteDirectory _ =>
    if path ≠ [] ∧ contents path = some .directory then (some .done, contents.without path)
    else (none, contents)
  | read _ =>
    match contents path with
    | some (.file data) => (some (.bytes data), contents)
    | _ => (none, contents)
  | exists? _ => (some (.found (contents path).isSome), contents)
  | children _ =>
    if contents path = some .directory then
      (some (.addresses {uri | ∃ name, contents (path ++ [name]) ≠ none ∧
        uri = .ofPath account (path ++ [name]).text}), contents)
    else (none, contents)
  | status _ =>
    match contents path with
    | some .directory => (some (.length 0), contents)
    | some (.file data) => (some (.length data.size), contents)
    | _ => (none, contents)

section perform

variable {account : String} {contents : Contents} {uri : RemoteUri} {data : ByteArray}

theorem perform_create (h : contents.CanPut (ofString uri.path)) :
    (create uri data).perform account contents = (some .done,
      contents.put (ofString uri.path) data) :=
  if_pos h

theorem perform_create_refused (h : ¬ contents.CanPut (ofString uri.path)) :
    (create uri data).perform account contents = (none, contents) :=
  if_neg h

theorem perform_delete (h : contents.CanDelete (ofString uri.path)) :
    (delete uri).perform account contents = (some .done, contents.without (ofString uri.path)) :=
  if_pos h

theorem perform_delete_refused (h : ¬ contents.CanDelete (ofString uri.path)) :
    (delete uri).perform account contents = (none, contents) :=
  if_neg h

theorem perform_createDirectory (h : contents.CanPutDirectory (ofString uri.path)) :
    (createDirectory uri).perform account contents =
      (some .done, contents.putDirectory (ofString uri.path)) :=
  if_pos h

theorem perform_createDirectory_refused (h : ¬ contents.CanPutDirectory (ofString uri.path)) :
    (createDirectory uri).perform account contents = (none, contents) :=
  if_neg h

theorem perform_deleteDirectory (hne : ofString uri.path ≠ [])
    (h : contents (ofString uri.path) = some .directory) :
    (deleteDirectory uri).perform account contents =
      (some .done, contents.without (ofString uri.path)) :=
  if_pos ⟨hne, h⟩

theorem perform_deleteDirectory_root (hroot : ofString uri.path = []) :
    (deleteDirectory uri).perform account contents = (none, contents) :=
  if_neg fun h => h.1 hroot

theorem perform_deleteDirectory_refused (h : contents (ofString uri.path) ≠ some .directory) :
    (deleteDirectory uri).perform account contents = (none, contents) :=
  if_neg fun hand => h hand.2

theorem perform_children_refused (h : contents (ofString uri.path) ≠ some .directory) :
    (children uri).perform account contents = (none, contents) :=
  if_neg h

theorem perform_read_of_file (h : contents (ofString uri.path) = some (.file data)) :
    (read uri).perform account contents = (some (.bytes data), contents) := by
  unfold perform path Operation.uri
  dsimp only
  rw [h]

theorem perform_read_of_not_file (h : ∀ data, contents (ofString uri.path) ≠ some (.file data)) :
    (read uri).perform account contents = (none, contents) := by
  unfold perform path Operation.uri
  dsimp only
  split
  . next data hfile => exact absurd hfile (h data)
  . rfl

theorem perform_status_of_directory (h : contents (ofString uri.path) = some .directory) :
    (status uri).perform account contents = (some (.length 0), contents) := by
  unfold perform path Operation.uri
  dsimp only
  rw [h]

theorem perform_status_of_file (h : contents (ofString uri.path) = some (.file data)) :
    (status uri).perform account contents = (some (.length data.size), contents) := by
  unfold perform path Operation.uri
  dsimp only
  rw [h]

theorem perform_status_of_none (h : contents (ofString uri.path) = none) :
    (status uri).perform account contents = (none, contents) := by
  unfold perform path Operation.uri
  dsimp only
  rw [h]

end perform

end Operation

structure Turn where
  operation : Operation
  before : Contents
  answer : Option Answer
  after : Contents

open Classical in
/--
The same turn on a store on the host, which cannot tell that nothing is there when a file is on the
way.
-/
noncomputable def Turn.onHost (turn : Turn) : Turn :=
  match turn.operation with
  | .exists? uri =>
    if turn.before.FileAbove (ofString uri.path) then { turn with answer := none } else turn
  | _ => turn

theorem Turn.onHost_of_failed (operation : Operation) (before after : Contents) :
    Turn.onHost ⟨operation, before, none, after⟩ = ⟨operation, before, none, after⟩ := by
  unfold onHost
  split
  . split
    all_goals rfl
  . rfl

namespace Operation

section trace

variable {σ : Type} [StoreClient σ]

/-- What comes of each operation in turn. -/
def trace (contents : σ → Contents) (client : σ) : List Operation → List Turn
  | [] => []
  | operation :: rest =>
    let (answer, changed) := operation.run client
    ⟨operation, contents client, answer, contents changed⟩ :: trace contents changed rest

noncomputable def performed (account : String) (contents : Contents) (operation : Operation) :
    Turn :=
  ⟨operation, contents, (operation.perform account contents).1,
    (operation.perform account contents).2⟩

noncomputable def performAll (account : String) (contents : Contents) : List Operation → List Turn
  | [] => []
  | operation :: rest =>
    operation.performed account contents ::
      performAll account (operation.perform account contents).2 rest

structure Performs (account : String) (contents : σ → Contents) (Fit : σ → Prop)
    (tells : Turn → Turn) (client : σ) (operation : Operation) : Prop where
  turn : ⟨operation, contents client, (operation.run client).1, contents (operation.run client).2⟩ =
    tells (operation.performed account (contents client))
  contents : contents (operation.run client).2 = (operation.perform account (contents client)).2
  fit : Fit (operation.run client).2

variable {account : String} {contents : σ → Contents} {Fit : σ → Prop} {tells : Turn → Turn}

theorem performs_of_run {client after : σ} {operation : Operation} {answer answered : Option Answer}
    (htells : tells ⟨operation, contents client, answered, contents after⟩ =
      ⟨operation, contents client, answer, contents after⟩)
    (hrun : operation.run client = (answer, after))
    (hperform : operation.perform account (contents client) = (answered, contents after))
    (hfit : Fit after) : operation.Performs account contents Fit tells client := by
  refine ⟨?_, ?_, ?_⟩
  . unfold performed
    rw [hrun, hperform]
    exact htells.symm
  . rw [hrun, hperform]
  . rw [hrun]
    exact hfit

theorem trace_eq_performAll {operations : List Operation}
    (hperforms : ∀ operation ∈ operations, ∀ client, Fit client →
      operation.Performs account contents Fit tells client)
    {client : σ} (h : Fit client) :
    trace contents client operations =
      (performAll account (contents client) operations).map tells := by
  -- Induction over the operations, for every client: the first one leaves a client that is fit for
  -- the rest.
  induction operations generalizing client with
  | nil => rfl
  | cons operation rest ih =>
    have hperformed := hperforms operation (.head _) client h
    have hrest := ih (fun other hother => hperforms other (.tail _ hother)) hperformed.fit
    unfold trace performAll
    dsimp only
    rw [hrest, hperformed.turn, hperformed.contents, List.map_cons]

end trace

theorem perform_wellFormed (account : String) {contents : Contents} (h : contents.WellFormed)
    (operation : Operation) : (operation.perform account contents).2.WellFormed := by
  have hpath := ofString_canonical operation.uri.path
  cases operation with
  | create uri data =>
    by_cases hput : contents.CanPut (ofString uri.path)
    . rw [perform_create hput]
      exact h.put hpath hput.1 data
    . rw [perform_create_refused hput]
      exact h
  | delete uri =>
    by_cases hdelete : contents.CanDelete (ofString uri.path)
    . rw [perform_delete hdelete]
      exact h.without hdelete.1
    . rw [perform_delete_refused hdelete]
      exact h
  | createDirectory uri =>
    by_cases hput : contents.CanPutDirectory (ofString uri.path)
    . rw [perform_createDirectory hput]
      exact h.putDirectory hpath
    . rw [perform_createDirectory_refused hput]
      exact h
  | deleteDirectory uri =>
    unfold perform
    dsimp only
    split
    . next hdirectory => exact h.without hdirectory.1
    . exact h
  | read uri =>
    unfold perform
    dsimp only
    split
    all_goals exact h
  | exists? uri => exact h
  | children uri =>
    unfold perform
    dsimp only
    split
    all_goals exact h
  | status uri =>
    unfold perform
    dsimp only
    split
    all_goals exact h

theorem eq_performed_of_mem {account : String} {contents : Contents} {operations : List Operation}
    {turn : Turn} (h : contents.WellFormed) (hmem : turn ∈ performAll account contents operations) :
    turn.before.WellFormed ∧ turn = turn.operation.performed account turn.before := by
  induction operations generalizing contents with
  | nil => cases hmem
  | cons operation rest ih =>
    unfold performAll at hmem
    rw [List.mem_cons] at hmem
    rcases hmem with rfl | hmem
    . exact ⟨h, rfl⟩
    . exact ih (perform_wellFormed account h operation) hmem

theorem told_of_onHost_ne {account : String} {contents : Contents} {operations : List Operation}
    {turn : Turn} (h : contents.WellFormed) (hmem : turn ∈ performAll account contents operations)
    (hdiffers : turn.onHost ≠ turn) :
    turn.answer = some (.found false) ∧ turn.onHost.answer = none := by
  obtain ⟨hbefore, heq⟩ := eq_performed_of_mem h hmem
  obtain ⟨operation, before, answer, after⟩ := turn
  unfold Turn.onHost at hdiffers ⊢
  cases operation with
  | exists? uri =>
    dsimp only at hdiffers ⊢
    split at hdiffers
    . next hfile =>
      have hnone : before (ofString uri.path) = none := by
        by_contra hsome
        exact hbefore.isTree.not_fileAbove hsome hfile
      have hanswer : answer = some (.found (before (ofString uri.path)).isSome) :=
        congrArg Turn.answer heq
      rw [hnone] at hanswer
      rw [if_pos hfile]
      exact ⟨hanswer, rfl⟩
    . exact absurd rfl hdiffers
  | _ => exact absurd rfl hdiffers

end Operation

end LakeStore
