import LakeStore.Command.Basic
import LakeStore.Config.Load
import LakeStore.FileSystem

/-!
Running the program: a command is carried out by the file system over the configured store. What it
prints is known when it has succeeded; otherwise it prints nothing.
-/

namespace LakeStore

inductive CommandError where
  | usage (error : UsageError)
  | config (error : ConfigError)
  | memoryStore
  | fileSystem (error : FsError)
  | stream (error : StreamError)
deriving DecidableEq, Repr

namespace CommandError

def message : CommandError → String
  | usage error => error.message
  | config error => error.message
  | memoryStore =>
    "the memory store does not persist between invocations; configure kind = \"directory\""
  | fileSystem error => error.message
  | stream error => error.message

def causes : CommandError → List String
  | config error => error.causes
  | fileSystem error => error.causes
  | _ => []

def report (error : CommandError) : String :=
  error.message ++
    match error.causes with
    | [] => ""
    | [cause] => s!"\n\nCaused by:\n    {cause}"
    | causes => "\n\nCaused by:" ++
      String.join (causes.zipIdx.map fun (cause, number) => s!"\n    {number}: {cause}")

end CommandError

namespace FileSystem

variable {σ : Type} [StoreClient σ]

/-- The address of an entry. A text that holds `://` is an address, and any other is a path. -/
def resolve (text : String) : FsM σ RemoteUri :=
  if (RemoteUri.cutAt "://".toList text.toList).isSome then
    Step.ofExcept (parseUri text)
  else
    uriOfPath text

end FileSystem

namespace Command

open FileSystem StoreClient

variable {σ : Type} [StoreClient σ]

def statText (uri : RemoteUri) (status : FileStatus) : String :=
  s!"{uri}\t{status.length}\t{status.modified.rfc3339}\n"

def printing (step : FsM σ String) : Step σ CommandError ByteArray := do
  return (← step.mapError .fileSystem).toUTF8

def silent (step : FsM σ Unit) : Step σ CommandError ByteArray :=
  printing (step *> return "")

def path : Command → String
  | exists? path | stat path | ls path | mkdir path | rm path | rmdir path | cat path | uri path =>
    path
  | put _ remote | get remote _ | write remote _ => remote

/-- The address of the entry of a command. Only `uri` takes every text for a path. -/
def address (command : Command) : FsM σ RemoteUri :=
  match command with
  | uri path => uriOfPath path
  | _ => resolve command.path

def runAt (address : RemoteUri) : Command → Step σ CommandError ByteArray
  | exists? _ => printing do
    let found ← FileSystem.exists? address
    return if found then "true\n" else "false\n"
  | stat _ => printing do
    return statText address (← status address)
  | ls _ => printing do
    let children ← children address
    return String.join (children.all.map fun uri => s!"{uri}\n")
  | mkdir _ => silent (FileSystem.createDirectory address)
  | rm _ => silent (FileSystem.delete address)
  | rmdir _ => silent (deleteDirectory address)
  | put source _ => silent (copyFromLocal source address)
  | get _ target => silent (copyToLocal address target)
  | cat _ => do
    let reader ← Step.mapError .fileSystem (openFile address)
    readAll reader
  | write _ text => do
    let writer ← Step.mapError .fileSystem (FileSystem.create address)
    discard <| (writeAll writer text.toUTF8).mapError .stream
    return ByteArray.empty
  | uri _ => printing do
    return s!"{address}\n"

def run (command : Command) : Step σ CommandError ByteArray := do
  command.runAt (← command.address.mapError .fileSystem)

end Command

namespace Invocation

def run (invocation : Invocation) (environment? : Option String) :
    Step Disk CommandError ByteArray := do
  let path := invocation.configPath environment?
  let config ← Step.ofExcept ((Config.load (← get) path).mapError .config)
  unless invocation.command.suits config.store do
    throw .memoryStore
  config.prepare.mapError .config
  config.withClient fun σ => do
    Step.ofExcept ((FileSystem.check (← get : σ)).mapError .fileSystem)
    invocation.command.run

end Invocation

def runProgram (arguments : List String) (environment? : Option String) :
    Step Disk CommandError ByteArray := do
  let invocation ← Step.ofExcept ((Invocation.parse arguments).mapError .usage)
  invocation.run environment?

end LakeStore
