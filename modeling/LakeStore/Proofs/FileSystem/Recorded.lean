import LakeStore.Proofs.FileSystem.Operations

/-!
A client that keeps a record of the calls that are made of it, with their answers. A program over
the file system does the same with this client as with the client itself.
-/

namespace LakeStore

inductive ClientCall where
  | exists? (path : String)
  | openReader (path : String)
  | createFile (path : String) (ifExists : IfExists)
  | delete (path : String)
  | createDirectory (path : String)
  | deleteRecursive (path : String)
  | entryAt? (path : String)
  | list (path : String)
  | upload (source path : String)
  | download (path target : String)

namespace ClientCall

@[reducible]
def Answer (ρ ω : Type) : ClientCall → Type
  | exists? _ => Bool
  | openReader _ => ρ
  | createFile _ _ => ω
  | delete _ => Bool
  | createDirectory _ => Bool
  | deleteRecursive _ => Bool
  | entryAt? _ => Option Entry
  | list _ => List Entry
  | upload _ _ => Transfer
  | download _ _ => Transfer

def directory? : ClientCall → Option String
  | deleteRecursive path => some path
  | list path => some path
  | _ => none

abbrev AnswerOf (σ : Type) [StoreClient σ] (call : ClientCall) : Type :=
  call.Answer (StoreClient.Reader σ) (StoreClient.Writer σ)

def make {σ : Type} [StoreClient σ] : (call : ClientCall) → ClientM σ (call.AnswerOf σ)
  | exists? path => StoreClient.exists? path
  | openReader path => StoreClient.openReader path
  | createFile path ifExists => StoreClient.createFile path ifExists
  | delete path => StoreClient.delete path
  | createDirectory path => StoreClient.createDirectory path
  | deleteRecursive path => StoreClient.deleteRecursive path
  | entryAt? path => StoreClient.entryAt? path
  | list path => StoreClient.list path
  | upload source path => StoreClient.upload source path
  | download path target => StoreClient.download path target

end ClientCall

structure Exchange (ρ ω : Type) where
  call : ClientCall
  answer : Except ClientError (call.Answer ρ ω)

abbrev ExchangeWith (σ : Type) [StoreClient σ] : Type :=
  Exchange (StoreClient.Reader σ) (StoreClient.Writer σ)

def Exchange.error? {ρ ω : Type} (exchange : Exchange ρ ω) : Option ClientError :=
  match exchange.answer with
  | .ok _ => none
  | .error error => some error

/-- Whether a client answers calls in this way when they are made one after another. -/
inductive Answers {σ : Type} [StoreClient σ] :
    σ → List (ExchangeWith σ) → σ → Prop where
  | nil (client : σ) : Answers client [] client
  | cons {client changed last : σ} {call : ClientCall}
      {answer : Except ClientError (call.AnswerOf σ)}
      {rest : List (ExchangeWith σ)}
      (first : call.make.outcome client = (answer, changed)) (others : Answers changed rest last) :
      Answers client (⟨call, answer⟩ :: rest) last

structure Recorded (σ : Type) [StoreClient σ] where
  client : σ
  trace : List (ExchangeWith σ)

namespace Recorded

variable {σ : Type} [StoreClient σ]

def record (call : ClientCall) :
    ClientM (Recorded σ) (call.AnswerOf σ) :=
  ExceptT.mk do
    let recorded ← get
    let (answer, client) := call.make.outcome recorded.client
    set (Recorded.mk client (recorded.trace ++ [⟨call, answer⟩]))
    return answer

instance : StoreClient (Recorded σ) where
  Reader := StoreClient.Reader σ
  Writer := StoreClient.Writer σ
  account recorded := StoreClient.account recorded.client
  exists? path := record (.exists? path)
  openReader path := record (.openReader path)
  createFile path ifExists := record (.createFile path ifExists)
  delete path := record (.delete path)
  createDirectory path := record (.createDirectory path)
  deleteRecursive path := record (.deleteRecursive path)
  entryAt? path := record (.entryAt? path)
  list path := record (.list path)
  upload source path := record (.upload source path)
  download path target := record (.download path target)
  read reader count? := do
    let recorded ← get
    let (answer, client) := (StoreClient.read reader count?).run recorded.client
    set { recorded with client }
    return answer
  write writer data :=
    (StoreClient.write writer data).onPart (·.client) fun recorded client =>
      { recorded with client }

theorem outcome_record_of {call : ClientCall} {client changed : σ}
    {answer : Except ClientError (call.AnswerOf σ)}
    (h : call.make.outcome client = (answer, changed))
    (trace : List (ExchangeWith σ)) :
    (record call).outcome ⟨client, trace⟩ = (answer, ⟨changed, trace ++ [⟨call, answer⟩]⟩) := by
  change ((call.make.outcome client).1,
    Recorded.mk (call.make.outcome client).2
      (trace ++ [⟨call, (call.make.outcome client).1⟩])) = _
  rw [h]

section

variable {β : Type} {client changed last : σ} {call : ClientCall}
  {calls : List (ExchangeWith σ)}

structure Makes (program : FsM σ β) (recorded : FsM (Recorded σ) β) (client : σ)
    (result : Except FsError β) (last : σ)
    (calls : List (ExchangeWith σ)) : Prop where
  plain : program.outcome client = (result, last)
  recorded : ∀ trace, recorded.outcome ⟨client, trace⟩ = (result, ⟨last, trace ++ calls⟩)
  answered : Answers client calls last

theorem Makes.call_ok {value : call.AnswerOf σ}
    (h : call.make.outcome client = (.ok value, changed))
    {next : call.AnswerOf σ → FsM σ β}
    {next' : call.AnswerOf σ → FsM (Recorded σ) β}
    {result : Except FsError β}
    (hnext : Makes (next value) (next' value) changed result last calls) :
    Makes (FileSystem.call call.make >>= next) (FileSystem.call (record call) >>= next') client
      result last (⟨call, .ok value⟩ :: calls) := by
  constructor
  . rw [Step.outcome_bind_ok (FileSystem.call_of_ok h)]
    exact hnext.plain
  . intro trace
    have hrecord := FileSystem.call_of_ok (outcome_record_of h trace)
    rw [Step.outcome_bind_ok hrecord, hnext.recorded, List.append_assoc]
    rfl
  . exact .cons h hnext.answered

theorem Makes.call_error {error : ClientError}
    (h : call.make.outcome client = (.error error, changed))
    (next : call.AnswerOf σ → FsM σ β)
    (next' : call.AnswerOf σ → FsM (Recorded σ) β) :
    Makes (FileSystem.call call.make >>= next) (FileSystem.call (record call) >>= next') client
      (.error (.client error)) changed [⟨call, .error error⟩] := by
  constructor
  . rw [Step.outcome_bind_error (FileSystem.call_of_error h)]
  . intro trace
    rw [Step.outcome_bind_error (FileSystem.call_of_error (outcome_record_of h trace))]
  . exact .cons h (.nil changed)

end

end Recorded

end LakeStore
