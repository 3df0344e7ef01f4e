import LakeStore.Store.Client

/-!
Runs of a client: its calls in any order, with any arguments, and with the streams that they open.
What every single call keeps true of a client is true after a whole run.
-/

namespace LakeStore

inductive Call where
  | exists? (path : String)
  | openReader (path : String)
  | createFile (path : String) (ifExists : IfExists)
  | delete (path : String)
  | createDirectory (path : String)
  | deleteRecursive (path : String)
  | entryAt? (path : String)
  | list (path : String)
  | upload (source path : String)
  | download (path target : String)
  | read (reader : Nat) (count? : Option Nat)
  | write (writer : Nat) (data : ByteArray)

structure Session (σ : Type) [StoreClient σ] where
  client : σ
  readers : List (StoreClient.Reader σ)
  writers : List (StoreClient.Writer σ)

namespace Session

variable {σ : Type} [StoreClient σ] {ε α : Type}

def start (client : σ) : Session σ :=
  ⟨client, [], []⟩

def after (session : Session σ) (step : Step σ ε α) : Session σ :=
  { session with client := (step.outcome session.client).2 }

def openReader (session : Session σ) (path : String) : Session σ :=
  match (StoreClient.openReader path).outcome session.client with
  | (.ok reader, client) => { session with client, readers := session.readers ++ [reader] }
  | (.error _, client) => { session with client }

def createFile (session : Session σ) (path : String) (ifExists : IfExists) : Session σ :=
  match (StoreClient.createFile path ifExists).outcome session.client with
  | (.ok writer, client) => { session with client, writers := session.writers ++ [writer] }
  | (.error _, client) => { session with client }

def read (session : Session σ) (index : Nat) (count? : Option Nat) : Session σ :=
  match session.readers[index]? with
  | none => session
  | some reader =>
    let ((_, reader), client) := (StoreClient.read reader count?).run session.client
    { session with client, readers := session.readers.set index reader }

def write (session : Session σ) (index : Nat) (data : ByteArray) : Session σ :=
  match session.writers[index]? with
  | none => session
  | some writer =>
    match (StoreClient.write writer data).outcome session.client with
    | (.ok writer, client) => { session with client, writers := session.writers.set index writer }
    | (.error _, client) => { session with client }

def step (session : Session σ) : Call → Session σ
  | .exists? path => session.after (StoreClient.exists? path)
  | .openReader path => session.openReader path
  | .createFile path ifExists => session.createFile path ifExists
  | .delete path => session.after (StoreClient.delete path)
  | .createDirectory path => session.after (StoreClient.createDirectory path)
  | .deleteRecursive path => session.after (StoreClient.deleteRecursive path)
  | .entryAt? path => session.after (StoreClient.entryAt? path)
  | .list path => session.after (StoreClient.list path)
  | .upload source path => session.after (StoreClient.upload source path)
  | .download path target => session.after (StoreClient.download path target)
  | .read reader count? => session.read reader count?
  | .write writer data => session.write writer data

def run (session : Session σ) (calls : List Call) : Session σ :=
  calls.foldl step session

structure KeptByCalls (P : σ → Prop) : Prop where
  exists? : ∀ path client, P client → P ((StoreClient.exists? path).outcome client).2
  openReader : ∀ path client, P client → P ((StoreClient.openReader path).outcome client).2
  createFile : ∀ path ifExists client, P client →
    P ((StoreClient.createFile path ifExists).outcome client).2
  delete : ∀ path client, P client → P ((StoreClient.delete path).outcome client).2
  createDirectory : ∀ path client,
    P client → P ((StoreClient.createDirectory path).outcome client).2
  deleteRecursive : ∀ path client,
    P client → P ((StoreClient.deleteRecursive path).outcome client).2
  entryAt? : ∀ path client, P client → P ((StoreClient.entryAt? path).outcome client).2
  list : ∀ path client, P client → P ((StoreClient.list path).outcome client).2
  upload : ∀ source path client, P client → P ((StoreClient.upload source path).outcome client).2
  download : ∀ path target client, P client →
    P ((StoreClient.download path target).outcome client).2
  read : ∀ reader count? client, P client → P ((StoreClient.read reader count?).run client).2
  write : ∀ writer data client, P client → P ((StoreClient.write writer data).outcome client).2

variable {P : σ → Prop}

theorem client_openReader (session : Session σ) (path : String) :
    (session.openReader path).client =
      ((StoreClient.openReader path).outcome session.client).2 := by
  unfold Session.openReader
  split
  all_goals
    next houtcome => rw [houtcome]

theorem client_createFile (session : Session σ) (path : String) (ifExists : IfExists) :
    (session.createFile path ifExists).client =
      ((StoreClient.createFile path ifExists).outcome session.client).2 := by
  unfold Session.createFile
  split
  all_goals
    next houtcome => rw [houtcome]

theorem client_read (session : Session σ) (index : Nat) (count? : Option Nat) :
    (session.read index count?).client =
      match session.readers[index]? with
      | none => session.client
      | some reader => ((StoreClient.read reader count?).run session.client).2 := by
  unfold Session.read
  cases session.readers[index]? <;> rfl

theorem client_write (session : Session σ) (index : Nat) (data : ByteArray) :
    (session.write index data).client =
      match session.writers[index]? with
      | none => session.client
      | some writer => ((StoreClient.write writer data).outcome session.client).2 := by
  unfold Session.write
  cases session.writers[index]? with
  | none => rfl
  | some writer =>
    dsimp only
    split
    all_goals
      next houtcome => rw [houtcome]

theorem KeptByCalls.step (hkept : KeptByCalls P) {session : Session σ} (h : P session.client)
    (call : Call) : P (session.step call).client := by
  unfold Session.step
  split
  . next path => exact hkept.exists? path session.client h
  . next path =>
    rw [client_openReader]
    exact hkept.openReader path session.client h
  . next path ifExists =>
    rw [client_createFile]
    exact hkept.createFile path ifExists session.client h
  . next path => exact hkept.delete path session.client h
  . next path => exact hkept.createDirectory path session.client h
  . next path => exact hkept.deleteRecursive path session.client h
  . next path => exact hkept.entryAt? path session.client h
  . next path => exact hkept.list path session.client h
  . next source path => exact hkept.upload source path session.client h
  . next path target => exact hkept.download path target session.client h
  . next index count? =>
    rw [client_read]
    split
    . exact h
    . next reader _ => exact hkept.read reader count? session.client h
  . next index data =>
    rw [client_write]
    split
    . exact h
    . next writer _ => exact hkept.write writer data session.client h

theorem KeptByCalls.run (hkept : KeptByCalls P) {session : Session σ} (h : P session.client)
    (calls : List Call) : P (session.run calls).client := by
  unfold Session.run
  induction calls generalizing session with
  | nil => exact h
  | cons call calls ih =>
    rw [List.foldl_cons]
    apply ih
    exact hkept.step h call

end Session

end LakeStore
